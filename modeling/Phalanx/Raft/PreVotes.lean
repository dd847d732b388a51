import Phalanx.Raft.Operations
import Phalanx.Raft.Reference

/-! Two runs of one instance that differ in the pre-votes it is asked for. The outbox is
only ever appended to and never read, so the two differ in the replies and in nothing
else: neither the term, the vote and the clocks nor the random source sees the request. -/
namespace Phalanx

open Go

namespace Raft

variable {r r' : Raft} {msg : Message} (old : List Message)

/-- The instance with older messages still in its outbox. -/
def behind (r : Raft) : Raft := { r with msgs := old ++ r.msgs }

theorem send_behind (r : Raft) (msg : Message) :
    (r.behind old).send msg = (r.send msg).behind old := by
  simp [send, behind]

theorem broadcastRequestVote_behind (r : Raft) :
    (r.behind old).broadcastRequestVote = r.broadcastRequestVote.behind old := by
  simp [broadcastRequestVote, behind, lastLogIndex, lastLogTerm]

theorem broadcastHeartbeat_behind (r : Raft) :
    (r.behind old).broadcastHeartbeat = r.broadcastHeartbeat.map (behind old) := by
  have hfor : (r.behind old).appendEntriesFor = r.appendEntriesFor := rfl
  unfold broadcastHeartbeat
  rw [hfor]
  change (r.peers.mapM r.appendEntriesFor).bind _ = _
  cases r.peers.mapM r.appendEntriesFor with
  | none => rfl
  | some out => simp [behind]

theorem resetElectionTimeout_behind (r : Raft) :
    (r.behind old).resetElectionTimeout = r.resetElectionTimeout.map (behind old) := by
  unfold resetElectionTimeout
  by_cases hbase : 0 < r.baseElectionTimeout
  · rw [if_pos hbase, if_pos (show 0 < (r.behind old).baseElectionTimeout from hbase)]
    rfl
  · rw [if_neg hbase, if_neg (show ¬ 0 < (r.behind old).baseElectionTimeout from hbase)]
    rfl

theorem becomeFollower_behind (r : Raft) (term : Nat) (leaderID : String) :
    (r.behind old).becomeFollower term leaderID =
      (r.becomeFollower term leaderID).map (behind old) :=
  resetElectionTimeout_behind old
    { r with
      state := .follower
      currentTerm := term
      votedFor := None
      leaderID := leaderID
      leaderActive := leaderID ≠ None
      electionElapsed := 0 }

theorem becomeLeader_behind (r : Raft) :
    (r.behind old).becomeLeader = r.becomeLeader.map (behind old) :=
  broadcastHeartbeat_behind old r.crowned

theorem becomeCandidate_behind (r : Raft) :
    (r.behind old).becomeCandidate = r.becomeCandidate.map (behind old) := by
  have hstands : (r.behind old).candidacy = r.candidacy.behind old := rfl
  have hquorum : (r.candidacy.behind old).quorum = r.candidacy.quorum := rfl
  have hbase : (r.behind old).baseElectionTimeout = r.baseElectionTimeout := rfl
  rw [becomeCandidate_eq, becomeCandidate_eq, hbase, hstands, hquorum]
  split
  · split
    · exact becomeLeader_behind old r.candidacy
    · rw [broadcastRequestVote_behind]
      rfl
  · rfl

theorem tickElection_behind (r : Raft) :
    (r.behind old).tickElection = r.tickElection.map (behind old) := by
  unfold tickElection
  simp only
  split
  next hdue =>
    rw [if_pos (show r.electionTimeout ≤ r.electionElapsed + 1 from hdue)]
    exact becomeCandidate_behind old { r with electionElapsed := 0, leaderActive := false }
  next hearly =>
    rw [if_neg (show ¬ r.electionTimeout ≤ r.electionElapsed + 1 from hearly)]
    rfl

theorem tickHeartbeat_behind (r : Raft) :
    (r.behind old).tickHeartbeat = r.tickHeartbeat.map (behind old) := by
  unfold tickHeartbeat
  simp only
  split
  next hdue =>
    rw [if_pos (show r.heartbeatTimeout ≤ r.heartbeatElapsed + 1 from hdue)]
    exact broadcastHeartbeat_behind old { r with heartbeatElapsed := 0, heartbeatAcked := 1 }
  next hearly =>
    rw [if_neg (show ¬ r.heartbeatTimeout ≤ r.heartbeatElapsed + 1 from hearly)]
    rfl

theorem tick_behind (r : Raft) : (r.behind old).tick = r.tick.map (behind old) := by
  have hstate : (r.behind old).state = r.state := rfl
  unfold tick
  rw [hstate]
  cases r.state with
  | follower => exact tickElection_behind old r
  | candidate => exact tickElection_behind old r
  | leader => exact tickHeartbeat_behind old r

theorem handleRequestVote_behind (r : Raft) (msg : Message) :
    (r.behind old).handleRequestVote msg = (r.handleRequestVote msg).behind old := by
  unfold handleRequestVote
  simp only [apply_ite (behind old), ← send_behind]
  rfl

theorem handlePreVoteResp_behind (r : Raft) (msg : Message) :
    (r.behind old).handlePreVoteResp msg = (r.handlePreVoteResp msg).map (behind old) := by
  have htally : (r.behind old).preTally = r.preTally := rfl
  have hquorum : (r.behind old).quorumSize = r.quorumSize := rfl
  rw [handlePreVoteResp_eq, handlePreVoteResp_eq, htally, hquorum]
  cases r.preTally.write msg.sender (!msg.reject) with
  | none => rfl
  | some preVotes =>
    simp only [Option.bind_some]
    split
    · exact becomeCandidate_behind old { r with preVotes }
    · rfl

theorem handleRequestVoteResp_behind (r : Raft) (msg : Message) :
    (r.behind old).handleRequestVoteResp msg =
      (r.handleRequestVoteResp msg).map (behind old) := by
  unfold handleRequestVoteResp
  by_cases hstate : r.state = .candidate
  · rw [if_neg (not_not.mpr hstate),
      if_neg (not_not.mpr (show (r.behind old).state = _ from hstate))]
    by_cases hpre : msg.isPreVote = true
    · rw [if_pos hpre, if_pos hpre]
      exact handlePreVoteResp_behind old r msg
    rw [if_neg hpre, if_neg hpre]
    by_cases hterm : msg.term = r.currentTerm
    · rw [if_neg (not_not.mpr hterm),
        if_neg (not_not.mpr (show msg.term = (r.behind old).currentTerm from hterm))]
      have hvotes : (r.behind old).votes = r.votes := rfl
      rw [hvotes]
      cases r.votes.write msg.sender (!msg.reject) with
      | none => rfl
      | some votes =>
        have hquorum : quorum { r.behind old with votes } = quorum { r with votes } := rfl
        simp only [Option.bind_eq_bind, Option.bind_some, hquorum]
        split
        · exact becomeLeader_behind old { r with votes }
        · rfl
    · rw [if_pos hterm, if_pos (show msg.term ≠ (r.behind old).currentTerm from hterm)]
      rfl
  · rw [if_pos hstate, if_pos (show (r.behind old).state ≠ _ from hstate)]
    rfl

theorem followCommit_behind (r : Raft) (msg : Message) :
    (r.behind old).followCommit msg = (r.followCommit msg).behind old := by
  unfold followCommit
  rw [apply_ite (behind old)]
  rfl

theorem replicate_behind (r : Raft) (reply msg : Message) :
    (r.behind old).replicate reply msg = (r.replicate reply msg).map (behind old) := by
  have hlog : (r.behind old).log = r.log := rfl
  by_cases hpasses : r.passes msg
  · rw [replicate_takes hpasses, replicate_takes ((passes_congr hlog).mpr hpasses),
      appendLoop_congr hlog, Option.map_map]
    congr 1
    funext log
    have hsame : { r.behind old with log } = behind old { r with log } := rfl
    rw [hsame, followCommit_behind, send_behind]
    rfl
  · rw [replicate_refuses hpasses, replicate_refuses (mt (passes_congr hlog).mp hpasses),
      hint_congr hlog, send_behind]
    rfl

theorem handleAppendEntries_behind (r : Raft) (msg : Message) :
    (r.behind old).handleAppendEntries msg = (r.handleAppendEntries msg).map (behind old) := by
  have hheeds : (r.behind old).heeding msg = (r.heeding msg).behind old := by
    unfold heeding
    rw [apply_ite (behind old)]
    rfl
  rw [handleAppendEntries_eq, handleAppendEntries_eq, hheeds, replicate_behind, send_behind,
    apply_ite (Option.map (behind old)), apply_ite (Option.map (behind old))]
  rfl

theorem maybeAdvanceCommit_behind (r : Raft) :
    (r.behind old).maybeAdvanceCommit = r.maybeAdvanceCommit.behind old := by
  have hfold : ∀ (l : List Nat) (r : Raft),
      l.foldl commitAt (r.behind old) = (l.foldl commitAt r).behind old := by
    intro l
    induction l with
    | nil => exact fun _ => rfl
    | cons n rest ih =>
      intro r
      have hone : (r.behind old).commitAt n = (r.commitAt n).behind old := by
        unfold commitAt
        simp only [apply_ite (behind old)]
        rfl
      rw [List.foldl_cons, List.foldl_cons, hone, ih]
  exact hfold _ r

theorem handleAppendEntriesResp_behind (r : Raft) (msg : Message) :
    (r.behind old).handleAppendEntriesResp msg =
      (r.handleAppendEntriesResp msg).map (behind old) := by
  have hstate : (r.behind old).state = r.state := rfl
  have hterm : (r.behind old).currentTerm = r.currentTerm := rfl
  have hnext : (r.behind old).nextIndex = r.nextIndex := rfl
  have hmatch : (r.behind old).matchIndex = r.matchIndex := rfl
  unfold handleAppendEntriesResp
  rw [hstate, hterm, hnext, hmatch]
  split
  · rfl
  split
  · rfl
  split
  · split
    · cases r.nextIndex.write msg.sender (msg.index + 1) <;> rfl
    · split
      · cases r.nextIndex.write msg.sender (r.nextIndex.read msg.sender - 1) <;> rfl
      · rfl
  · split
    · cases r.matchIndex.write msg.sender msg.index with
      | none => rfl
      | some matchIndex =>
        cases r.nextIndex.write msg.sender (msg.index + 1) with
        | none => rfl
        | some nextIndex =>
          exact congrArg some (maybeAdvanceCommit_behind old
            { r with matchIndex, nextIndex, heartbeatAcked := r.heartbeatAcked + 1 })
    · exact congrArg some (maybeAdvanceCommit_behind old
        { r with heartbeatAcked := r.heartbeatAcked + 1 })

theorem step_behind (r : Raft) (msg : Message) :
    (r.behind old).step msg = (r.step msg).map (behind old) := by
  have hobserve : (r.behind old).observeTerm msg = (r.observeTerm msg).map (behind old) := by
    unfold observeTerm
    rw [apply_ite (Option.map (behind old)), ← becomeFollower_behind]
    rfl
  unfold step
  rw [hobserve]
  cases r.observeTerm msg with
  | none => rfl
  | some r₁ =>
    simp only [Option.map_some, Option.bind_eq_bind, Option.bind_some]
    unfold handle
    split
    · rw [handleRequestVote_behind]
      rfl
    · exact handleRequestVoteResp_behind old r₁ msg
    · exact handleAppendEntries_behind old r₁ msg
    · exact handleAppendEntriesResp_behind old r₁ msg
    · rfl

theorem propose_behind (r : Raft) (data : List UInt8) :
    (r.behind old).propose data =
      (r.propose data).map fun result => (result.1, result.2.behind old) := by
  have hreturn : ∀ {x y : Option Raft} (index : Option Nat), x = y.map (behind old) →
      (x.bind fun r' => pure (index, r')) =
        (y.bind fun r' => pure (index, r')).map fun result => (result.1, result.2.behind old) := by
    rintro _ (_ | r') index rfl <;> rfl
  have hstate : (r.behind old).state = r.state := rfl
  have hmatch : (r.behind old).matchIndex = r.matchIndex := rfl
  have hwrite : r.matchIndex.write (r.behind old).id ((r.behind old).lastLogIndex + 1) =
      r.matchIndex.write r.id (r.lastLogIndex + 1) := rfl
  unfold propose
  simp only [hstate, hmatch, hwrite]
  split
  · rfl
  · split
    · exact hreturn _ (broadcastHeartbeat_behind old
        { r with log := r.log ++ [{ index := r.lastLogIndex + 1, term := r.currentTerm, data }] })
    · cases r.matchIndex.write r.id (r.lastLogIndex + 1) with
      | none => rfl
      | some matchIndex =>
        exact hreturn _ (broadcastHeartbeat_behind old
          { r with
            log := r.log ++ [{ index := r.lastLogIndex + 1, term := r.currentTerm, data }]
            matchIndex })

theorem perform_behind (r : Raft) {op : Op} (hop : op ≠ .messages) :
    (r.behind old).perform op = (r.perform op).map (behind old) := by
  cases op with
  | tick => exact tick_behind old r
  | step msg => exact step_behind old r msg
  | propose data =>
    simp only [perform, propose_behind, Option.map_map]
    rfl
  | addPeer nodeID =>
    refine congrArg some ?_
    unfold addPeer
    simp only [apply_ite (behind old)]
    rfl
  | messages => exact absurd rfl hop
  | applicableEntries =>
    refine congrArg some ?_
    unfold applicableEntries
    simp only [apply_ite Prod.snd, apply_ite (behind old)]
    rfl

end Raft

def Message.isPreVoteReply (msg : Message) : Bool := msg.type = .requestVoteResp ∧ msg.isPreVote

def Op.asksPreVote : Op → Bool
  | .step msg => msg.type = .requestVote ∧ msg.isPreVote
  | _ => false

namespace Raft

variable {r r' : Raft} {msg : Message}

/-- The instance without the pre-vote replies in its outbox. -/
def quieted (r : Raft) : Raft := { r with msgs := r.msgs.filter fun m => !m.isPreVoteReply }

def Quiet (r : Raft) : Prop := ∀ m ∈ r.msgs, m.isPreVoteReply = false

theorem Quiet.sent (h : r.Quiet) (out : List Message)
    (hout : ∀ m ∈ out, m.isPreVoteReply = false) (hmsgs : r'.msgs = r.msgs ++ out) :
    r'.Quiet := by
  intro m hm
  rw [hmsgs] at hm
  exact (List.mem_append.mp hm).elim (h m) (hout m)

theorem isPreVoteReply_of_real {m : Message} (h : m.isPreVote = false) :
    m.isPreVoteReply = false := by
  simp [Message.isPreVoteReply, h]

theorem Move.quiet {inbox : Message → Prop} {clock : Nat → Prop} (h : r.Quiet)
    (hmove : Move inbox clock r r') : r'.Quiet := by
  cases hmove with
  | canvass =>
    refine h.sent _ ?_ rfl
    intro m hm
    obtain ⟨peer, -, rfl⟩ := List.mem_map.mp hm
    rfl
  | broadcast _ _ hcast =>
    obtain ⟨out, hout, rfl⟩ := broadcastHeartbeat_eq hcast
    refine h.sent out ?_ rfl
    intro m hm
    obtain ⟨peer, -, hfor⟩ := exists_of_mem_mapM hout hm
    obtain ⟨entries, rfl⟩ := appendEntriesFor_eq hfor
    rfl
  | refuse msg reply _ _ _ _ _ hreal =>
    refine h.sent [reply] ?_ rfl
    intro m hm
    rw [List.mem_singleton.mp hm]
    exact isPreVoteReply_of_real hreal
  | grant msg =>
    refine h.sent [_] ?_ rfl
    intro m hm
    rw [List.mem_singleton.mp hm]
    rfl
  | heed msg =>
    unfold heeding
    split <;> exact h
  | accept msg log =>
    rw [accepting_eq]
    refine h.sent [_] ?_ rfl
    intro m hm
    rw [List.mem_singleton.mp hm]
    rfl
  | _ => exact h

theorem Moves.quiet {inbox : Message → Prop} {clock : Nat → Prop} (h : r.Quiet)
    (hmoves : Moves inbox clock r r') : r'.Quiet := by
  induction hmoves with
  | refl => exact h
  | tail _ hmove ih => exact hmove.quiet ih

theorem step_quiet (h : r.Quiet) (hop : Op.asksPreVote (.step msg) = false)
    (hstep : r.step msg = some r') : r'.Quiet := by
  rcases step_cases hstep with ⟨-, hreal⟩ | ⟨hpre, htype, -⟩ | ⟨-, -, rfl | ⟨-, hresp⟩⟩
  · have hmoves : Moves (fun _ => True) (fun _ => True) r r' := step_moves trivial rfl hreal
    exact hmoves.quiet h
  · simp [Op.asksPreVote, hpre, htype] at hop
  · exact h
  · obtain ⟨tally, preVotes, -, -, ⟨-, hcand⟩ | ⟨-, rfl⟩⟩ := handlePreVoteResp_cases hresp
    · have hmoves : Moves (fun _ => True) (fun _ => True) _ r' := becomeCandidate_moves hcand
      refine hmoves.quiet ?_
      exact h
    · exact h

theorem perform_quiet {op : Op} (h : r.Quiet) (hop : op.asksPreVote = false)
    (hperform : r.perform op = some r') : r'.Quiet := by
  cases op with
  | tick =>
    have hmoves : Moves (fun _ => False) (fun _ => True) r r' := tick_moves trivial hperform
    exact hmoves.quiet h
  | step msg => exact step_quiet h hop hperform
  | propose data =>
    obtain ⟨⟨index, r₁⟩, hpropose, rfl⟩ := Option.map_eq_some_iff.mp hperform
    have hmoves : Moves (fun _ => False) (fun _ => True) r r₁ := propose_moves hpropose
    exact hmoves.quiet h
  | addPeer nodeID =>
    cases hperform
    rw [(addPeer_frame r nodeID).1]
    exact h
  | messages =>
    cases hperform
    exact nofun
  | applicableEntries =>
    cases hperform
    rw [applicableEntries_eq]
    exact h

theorem Quiet.behind_quieted (h : r.Quiet) (old : List Message) :
    (r.behind old).quieted = r.behind (old.filter fun m => !m.isPreVoteReply) := by
  have hkept : (r.msgs.filter fun m => !m.isPreVoteReply) = r.msgs := by
    rw [List.filter_eq_self]
    intro m hm
    simp [h m hm]
  simp [behind, quieted, hkept]

theorem perform_quieted (r : Raft) {op : Op} (hop : op.asksPreVote = false) :
    r.quieted.perform op = (r.perform op).map quieted := by
  by_cases hmessages : op = .messages
  · rw [hmessages]
    rfl
  · -- both instances are the one with an empty outbox, behind messages of their own
    obtain ⟨r₀, hr₀⟩ : ∃ r₀, r₀ = { r with msgs := [] } := ⟨_, rfl⟩
    have hquiet : r₀.Quiet := by
      rw [hr₀]
      exact nofun
    have hself : r = r₀.behind r.msgs := by simp [hr₀, behind]
    have hless : r.quieted = r₀.behind (r.msgs.filter fun m => !m.isPreVoteReply) := by
      simp [hr₀, behind, quieted]
    have hfull : r.perform op = (r₀.perform op).map (behind r.msgs) := by
      conv_lhs => rw [hself]
      exact perform_behind r.msgs r₀ hmessages
    rw [hless, perform_behind _ r₀ hmessages, hfull, Option.map_map]
    apply Option.map_congr
    intro r' hr'
    exact ((perform_quiet hquiet hop hr').behind_quieted r.msgs).symm

theorem perform_asked (r : Raft) {op : Op} (hop : op.asksPreVote = true) :
    op ≠ .messages ∧ ∃ r', r.perform op = some r' ∧ r'.quieted = r.quieted := by
  cases op with
  | step msg =>
    obtain ⟨htype, hpre⟩ := of_decide_eq_true hop
    have hstep : r.step msg = some (r.handleRequestVote msg) := by
      unfold step observeTerm
      rw [if_neg (fun hno => hno.2 ⟨hpre, .inl htype⟩), Option.bind_eq_bind, Option.bind_some,
        handle, htype]
    refine ⟨Op.noConfusion, _, hstep, ?_⟩
    rcases step_cases hstep with ⟨hno, -⟩ | ⟨-, -, -, reject, heq⟩ | ⟨-, hno, -⟩
    · exact absurd ⟨hpre, .inl htype⟩ hno
    · rw [heq]
      simp [quieted, send, Message.isPreVoteReply]
    · rw [htype] at hno
      cases hno
  | _ => cases hop

/-- A sequence of calls: the state after it, and what each `Messages` among them returned. -/
def trace (r : Raft) : List Op → Option (Raft × List (List Message))
  | [] => some (r, [])
  | op :: rest => do
    let r' ← r.perform op
    let (final, out) ← r'.trace rest
    pure (final, if op = .messages then r.messages.1 :: out else out)

/-- What someone sees of a sequence of calls who ignores pre-vote replies. -/
def hushed (seen : Raft × List (List Message)) : Raft × List (List Message) :=
  (seen.1.quieted, seen.2.map fun out => out.filter fun m => !m.isPreVoteReply)

theorem trace_hushed (ops : List Op) : ∀ r : Raft,
    (r.trace ops).map hushed = r.quieted.trace (ops.filter fun op => !op.asksPreVote) := by
  induction ops with
  | nil => exact fun _ => rfl
  | cons op rest ih =>
    intro r
    cases hop : op.asksPreVote with
    | true =>
      obtain ⟨hmessages, r', hperform, hsame⟩ := perform_asked r hop
      rw [List.filter_cons_of_neg (by simp [hop]), ← hsame, ← ih r', trace, hperform]
      simp only [Option.bind_eq_bind, Option.bind_some, if_neg hmessages]
      cases r'.trace rest <;> rfl
    | false =>
      rw [List.filter_cons_of_pos (by simp [hop]), trace, trace, perform_quieted r hop]
      cases hperform : r.perform op with
      | none => rfl
      | some r' =>
        simp only [Option.bind_eq_bind, Option.bind_some, Option.map_some]
        rw [← ih r']
        cases r'.trace rest with
        | none => rfl
        | some seen =>
          by_cases hmessages : op = .messages
          · simp only [hmessages, if_true]
            rfl
          · simp only [if_neg hmessages]
            rfl

end Raft

/-- Without the requests for pre-votes, whatever their terms, a sequence of calls ends in the
same state and sends the same, the pre-vote replies apart. -/
theorem pre_votes_do_not_interfere (newSource : Int → Nat → Nat) (cfg : Config) (ops : List Op) :
    ((Raft.newRaft newSource cfg).bind fun r => (r.trace ops).map Raft.hushed) =
      (Raft.newRaft newSource cfg).bind fun r =>
        r.trace (ops.filter fun op => !op.asksPreVote) := by
  cases hnew : Raft.newRaft newSource cfg with
  | none => rfl
  | some r =>
    obtain ⟨rand, -, rfl⟩ := Raft.newRaft_eq hnew
    exact Raft.trace_hushed ops _

end Phalanx
