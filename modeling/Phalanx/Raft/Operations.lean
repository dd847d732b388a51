import Phalanx.Raft.Moves
import Phalanx.Transition

/-! One instance on its own, called by anyone in any order. Nothing is known of the
messages it is stepped with: they may be forged, and pre-votes are among them. Where a forged
`Index` makes the code wrap a position at `2^64`, or cut the log past its end and within its
capacity, the model stops with `none` or keeps the larger number: such a run is followed up to
that call, and what the code does after it is left out. -/
namespace Phalanx

open Go

/-- A call of one of the public methods that change an instance. -/
inductive Op where
  | tick
  | step (msg : Message)
  | propose (data : List UInt8)
  | addPeer (nodeID : String)
  | messages
  | applicableEntries
deriving DecidableEq

namespace Raft

def perform (r : Raft) : Op → Option Raft
  | .tick => r.tick
  | .step msg => r.step msg
  | .propose data => (r.propose data).map fun result => result.2
  | .addPeer nodeID => some (r.addPeer nodeID)
  | .messages => some r.messages.2
  | .applicableEntries => some r.applicableEntries.2

abbrev Run (newSource : Int → Nat → Nat) (cfg : Config) (ok : Raft → Op → Prop) : Raft → Prop :=
  Reachable (newRaft newSource cfg) perform ok

variable {r r' : Raft} {msg : Message}

theorem newRaft_eq {newSource : Int → Nat → Nat} {cfg : Config}
    (h : newRaft newSource cfg = some r) :
    ∃ rand, 0 < cfg.electionTimeout ∧ r = redraw
      { id := cfg.id, currentTerm := cfg.initialTerm, votedFor := cfg.initialVotedFor
        log := cfg.initialLog, heartbeatTimeout := cfg.heartbeatTimeout
        baseElectionTimeout := cfg.electionTimeout, peers := cfg.peers, rand } := by
  unfold newRaft resetElectionTimeout at h
  simp only at h
  split at h
  next hbase =>
    cases h
    exact ⟨_, hbase, rfl⟩
  next => cases h

theorem observeTerm_cases (h : r.observeTerm msg = some r') :
    r' = r ∨ r.currentTerm < msg.term ∧ ∃ leaderID, r' = r.demoted msg.term leaderID := by
  unfold observeTerm at h
  split at h
  next hlater => exact .inr ⟨hlater.1, _, becomeFollower_eq_some h⟩
  next =>
    cases h
    exact .inl rfl

theorem handleRequestVote_frame (r : Raft) (msg : Message) :
    ∃ votedFor electionElapsed msgs,
      r.handleRequestVote msg = { r with votedFor, electionElapsed, msgs } := by
  unfold handleRequestVote send
  simp only
  split
  · exact ⟨_, _, _, rfl⟩
  · split
    · exact ⟨_, _, _, rfl⟩
    · split
      · exact ⟨_, _, _, rfl⟩
      · split <;> exact ⟨_, _, _, rfl⟩

theorem handleRequestVoteResp_cases (h : r.handleRequestVoteResp msg = some r') :
    r' = r ∨ r.state = .candidate ∧
      (msg.isPreVote = true ∧ r.handlePreVoteResp msg = some r' ∨
        msg.isPreVote = false ∧ msg.term = r.currentTerm ∧ ∃ votes,
          r.votes.write msg.sender (!msg.reject) = some votes ∧
          (r' = { r with votes } ∨ { r with votes }.becomeLeader = some r')) := by
  unfold handleRequestVoteResp at h
  split at h
  · cases h
    exact .inl rfl
  next hstate =>
    simp only [ne_eq, Decidable.not_not] at hstate
    split at h
    next hpre => exact .inr ⟨hstate, .inl ⟨hpre, h⟩⟩
    next hreal =>
      split at h
      · cases h
        exact .inl rfl
      next hterm =>
        obtain ⟨votes, hvotes, h⟩ := Option.bind_eq_some_iff.mp h
        refine .inr ⟨hstate, .inr ⟨by simpa using hreal, by simpa using hterm, votes, hvotes, ?_⟩⟩
        simp only at h
        split at h
        · exact .inr h
        · cases h
          exact .inl rfl

theorem step_preVote (hpre : msg.isPreVote = true)
    (htype : msg.type = .requestVote ∨ msg.type = .requestVoteResp) :
    r.step msg = r.handle msg := by
  have hobserve : r.observeTerm msg = some r := if_neg fun hno => hno.2 ⟨hpre, htype⟩
  rw [step, hobserve]
  rfl

theorem step_cases (h : r.step msg = some r') :
    (¬ (msg.isPreVote = true ∧ (msg.type = .requestVote ∨ msg.type = .requestVoteResp)) ∧
      r.step { msg with isPreVote := false } = some r') ∨
    (msg.isPreVote = true ∧ msg.type = .requestVote ∧ r' = r.handleRequestVote msg ∧
      ∃ reject, r' = r.send
        { type := .requestVoteResp, sender := r.id, recipient := msg.sender,
          term := r.currentTerm, isPreVote := true, reject }) ∨
    msg.isPreVote = true ∧ msg.type = .requestVoteResp ∧
      (r' = r ∨ r.state = .candidate ∧ r.handlePreVoteResp msg = some r') := by
  cases hpre : msg.isPreVote with
  | false =>
    left
    refine ⟨nofun, ?_⟩
    rwa [show { msg with isPreVote := false } = msg by rw [← hpre]]
  | true =>
    cases htype : msg.type with
    | requestVote =>
      right; left
      rw [step_preVote hpre (.inl htype), handle] at h
      simp only [htype] at h
      cases h
      refine ⟨rfl, rfl, rfl, ?_⟩
      unfold handleRequestVote
      simp only [hpre, if_true]
      split <;> exact ⟨_, rfl⟩
    | requestVoteResp =>
      right; right
      rw [step_preVote hpre (.inr htype), handle] at h
      simp only [htype, handleRequestVoteResp, hpre, if_true] at h
      refine ⟨rfl, rfl, ?_⟩
      split at h
      · cases h
        exact .inl rfl
      next hstate => exact .inr ⟨not_not.mp hstate, h⟩
    | appendEntries =>
      refine .inl ⟨nofun, ?_⟩
      rw [← h]
      simp only [step, observeTerm, handle, htype, reduceCtorEq, or_self, and_false]
      rfl
    | appendEntriesResp =>
      refine .inl ⟨nofun, ?_⟩
      rw [← h]
      simp only [step, observeTerm, handle, htype, reduceCtorEq, or_self, and_false]
      rfl
    | unknown =>
      refine .inl ⟨nofun, ?_⟩
      rw [← h]
      simp only [step, observeTerm, handle, htype, reduceCtorEq, or_self, and_false]

/-- A pre-vote may start an election before its time, which is no move; all that follows is. -/
theorem step_moves_on (h : r.step msg = some r') :
    ∃ r₁ : Raft, Moves (fun m => m = { msg with isPreVote := false }) (fun _ => True) r₁ r' ∧
      (r₁.id = r.id ∧ r₁.peers = r.peers ∧ r₁.baseElectionTimeout = r.baseElectionTimeout) ∧
      r₁.log = r.log ∧ r₁.commitIndex = r.commitIndex ∧ r₁.lastApplied = r.lastApplied := by
  rcases step_cases h with ⟨-, hreal⟩ | ⟨-, -, -, reject, rfl⟩ | ⟨-, -, rfl | ⟨-, hpre⟩⟩
  · exact ⟨r, step_moves rfl rfl hreal, ⟨rfl, rfl, rfl⟩, rfl, rfl, rfl⟩
  · exact ⟨_, .refl, ⟨rfl, rfl, rfl⟩, rfl, rfl, rfl⟩
  · exact ⟨_, .refl, ⟨rfl, rfl, rfl⟩, rfl, rfl, rfl⟩
  · obtain ⟨tally, preVotes, -, -, ⟨-, hcand⟩ | ⟨-, rfl⟩⟩ := handlePreVoteResp_cases hpre
    · exact ⟨_, becomeCandidate_moves hcand, ⟨rfl, rfl, rfl⟩, rfl, rfl, rfl⟩
    · exact ⟨_, .refl, ⟨rfl, rfl, rfl⟩, rfl, rfl, rfl⟩

theorem step_same (h : r.step msg = some r') :
    r'.id = r.id ∧ r'.peers = r.peers ∧ r'.baseElectionTimeout = r.baseElectionTimeout := by
  obtain ⟨r₁, hmoves, ⟨hid, hpeers, hbase⟩, -⟩ := step_moves_on h
  exact ⟨hmoves.same.id.trans hid, hmoves.same.peers.trans hpeers, hmoves.same.base.trans hbase⟩

theorem replicate_frame {reply : Message} (h : r.replicate reply msg = some r') :
    ∃ log commitIndex msgs, r' = { r with log, commitIndex, msgs } := by
  unfold replicate at h
  split at h
  · cases h
    exact ⟨_, _, _, rfl⟩
  · split at h
    · cases h
      exact ⟨_, _, _, rfl⟩
    · obtain ⟨log, -, h⟩ := Option.bind_eq_some_iff.mp h
      rw [followCommit_eq] at h
      cases h
      exact ⟨_, _, _, rfl⟩

theorem handleAppendEntries_cases (h : r.handleAppendEntries msg = some r') :
    msg.term < r.currentTerm ∧ (∃ msgs, r' = { r with msgs }) ∨
      r.currentTerm ≤ msg.term ∧ r'.state = .follower ∧
        (msg.sender ≠ None → r'.leaderActive = true) := by
  unfold handleAppendEntries at h
  simp only at h
  split at h
  next hstale =>
    cases h
    exact .inl ⟨hstale, _, rfl⟩
  next hfresh =>
    refine .inr ⟨Nat.le_of_not_lt hfresh, ?_⟩
    split at h
    · obtain ⟨r₁, hr₁, h⟩ := Option.bind_eq_some_iff.mp h
      obtain ⟨log, commitIndex, msgs, rfl⟩ := replicate_frame h
      rw [becomeFollower_eq_some hr₁]
      exact ⟨rfl, fun hsender => decide_eq_true hsender⟩
    next hstate =>
      rw [Option.bind_eq_bind, Option.bind_some] at h
      obtain ⟨log, commitIndex, msgs, rfl⟩ := replicate_frame h
      exact ⟨not_not.mp hstate, fun _ => rfl⟩

theorem becomeCandidate_leader (h : r.becomeCandidate = some r') (hlead : r'.state = .leader) :
    r.candidacy.quorum = true ∧ r.candidacy.becomeLeader = some r' := by
  rcases becomeCandidate_cases h with hwon | ⟨-, rfl⟩
  · exact hwon
  · cases hlead

theorem tick_to_leader (h : r.tick = some r') (hlead : r'.state = .leader) :
    (r.state = .leader ∧ ∃ heartbeatElapsed heartbeatAcked msgs,
      r' = { r with heartbeatElapsed, heartbeatAcked, msgs }) ∨
    r.state ≠ .leader ∧
      ∃ r₁ : Raft, r₁.becomeLeader = some r' ∧ r₁.peers = r.peers ∧ r₁.quorum = true := by
  rcases tick_cases h with ⟨hstate, h⟩ | ⟨hstate, h⟩
  · exact .inl ⟨hstate, tickHeartbeat_frame h⟩
  · right
    rcases tickElection_cases h with ⟨-, rfl⟩ | ⟨-, h⟩
    · exact absurd hlead hstate
    · obtain ⟨hquorum, hwon⟩ := becomeCandidate_leader h hlead
      exact ⟨hstate, _, hwon, rfl, hquorum⟩

theorem step_to_leader (h : r.step msg = some r') (hlead : r'.state = .leader) :
    (r.state = .leader ∧ msg.type = .appendEntriesResp ∧
      r.handleAppendEntriesResp msg = some r') ∨
    (r.state = .leader ∧ ∃ votedFor electionElapsed msgs,
      r' = { r with votedFor, electionElapsed, msgs }) ∨
    (msg.type = .requestVoteResp ∧ r.state = .candidate) ∧
      ∃ r₁ : Raft, r₁.becomeLeader = some r' ∧ r₁.peers = r.peers := by
  obtain ⟨r₁, hr₁, h⟩ := Option.bind_eq_some_iff.mp h
  have hkept : r₁ = r ∨ r₁.state = .follower := by
    rcases observeTerm_cases hr₁ with hsame | ⟨-, leaderID, rfl⟩
    · exact .inl hsame
    · exact .inr rfl
  have hstay : r₁.state = .leader → r₁ = r := by
    intro hstate
    refine hkept.resolve_right fun hno => ?_
    rw [hstate] at hno
    cases hno
  unfold handle at h
  split at h
  next =>
    cases h
    obtain ⟨votedFor, electionElapsed, msgs, hframe⟩ := handleRequestVote_frame r₁ msg
    rw [hframe] at hlead ⊢
    cases hstay hlead
    exact .inr (.inl ⟨hlead, _, _, _, rfl⟩)
  next htype =>
    rcases handleRequestVoteResp_cases h with rfl | ⟨hstate, hcase⟩
    · cases hstay hlead
      exact .inr (.inl ⟨hlead, _, _, _, rfl⟩)
    have hsame : r₁ = r := hkept.resolve_right (by simp [hstate])
    subst hsame
    rcases hcase with ⟨-, hpre⟩ | ⟨-, -, votes, -, rfl | hwon⟩
    · obtain ⟨tally, preVotes, -, -, ⟨-, hcand⟩ | ⟨-, rfl⟩⟩ := handlePreVoteResp_cases hpre
      · have hwon := (becomeCandidate_leader hcand hlead).2
        exact .inr (.inr ⟨⟨htype, hstate⟩, _, hwon, rfl⟩)
      · exact absurd hlead (by simp [hstate])
    · exact absurd hlead (by simp [hstate])
    · exact .inr (.inr ⟨⟨htype, hstate⟩, _, hwon, rfl⟩)
  next =>
    rcases handleAppendEntries_cases h with ⟨-, msgs, rfl⟩ | ⟨-, hno, -⟩
    · cases hstay hlead
      exact .inr (.inl ⟨hlead, _, _, _, rfl⟩)
    · rw [hlead] at hno
      cases hno
  next htype =>
    have hstate : r₁.state = .leader := by
      rcases handleAppendEntriesResp_cases h with ⟨rfl, -⟩ | ⟨-, -, hstate, -⟩ | ⟨hstate, -⟩
      · exact hlead
      · exact hstate
      · exact hstate
    cases hstay hstate
    exact .inl ⟨hstate, htype, h⟩
  next =>
    cases h
    cases hstay hlead
    exact .inr (.inl ⟨hlead, _, _, _, rfl⟩)

theorem propose_leader {data : List UInt8} {index : Option Nat} (hlead : r.state = .leader)
    (h : r.propose data = some (index, r')) :
    ∃ matchIndex msgs, (∀ peer, matchIndex.read peer = r.matchIndex.read peer ∨
        peer = r.id ∧ matchIndex.read peer = r.lastLogIndex + 1) ∧
      r' = { r with
        log := r.log ++ [{ index := r.lastLogIndex + 1, term := r.currentTerm, data }]
        matchIndex, msgs } := by
  unfold propose at h
  rw [if_neg (by simpa using hlead)] at h
  simp only at h
  split at h
  next =>
    rw [Option.bind_eq_bind, Option.bind_some] at h
    obtain ⟨r₁, hcast, h⟩ := Option.bind_eq_some_iff.mp h
    cases h
    obtain ⟨out, -, rfl⟩ := broadcastHeartbeat_eq hcast
    exact ⟨r.matchIndex, _, fun _ => .inl rfl, rfl⟩
  next =>
    obtain ⟨matchIndex, hwrite, h⟩ := Option.bind_eq_some_iff.mp h
    obtain ⟨r₁, hcast, h⟩ := Option.bind_eq_some_iff.mp h
    cases h
    obtain ⟨out, -, rfl⟩ := broadcastHeartbeat_eq hcast
    refine ⟨matchIndex, _, fun peer => ?_, rfl⟩
    rw [GoMap.read_write hwrite]
    split
    next heq => exact .inr ⟨heq, rfl⟩
    next => exact .inl rfl

end Raft
end Phalanx
