import Phalanx.Raft.Moves
import Phalanx.Refinement.Node

/-! What the handlers put into the outbox. Every handler changes the term first and sends
afterwards, and whoever broadcasts does so last, as a leader, so the messages speak of the
state that the handler ends in. -/
namespace Phalanx

open Go

namespace Raft

variable {r r' : Raft} {msg : Message}

/-- `m` is a message that a handler from `r` to `r'` may leave. -/
structure Posted (r r' : Raft) (m : Message) : Prop where
  term : m.term = r'.currentTerm
  broadcast : m.type = .appendEntries → r'.state = .leader ∧
    r'.log.length ≤ r.log.length + 1 ∧ ∃ peer ∈ r'.peers, r'.appendEntriesFor peer = some m
  grant : m.type = .requestVoteResp → m.reject = false → m.isPreVote = false →
    r'.votedFor = m.recipient

def Posts (r r' : Raft) : Prop := ∀ m ∈ r'.msgs, m ∈ r.msgs ∨ Posted r r' m

theorem Posts.of_msgs (h : r'.msgs = r.msgs) : Posts r r' := by
  intro m hm
  exact .inl (h ▸ hm)

theorem Posts.of_send {m : Message} (h : r'.msgs = r.msgs ++ [m]) (hterm : m.term = r'.currentTerm)
    (htype : m.type ≠ .appendEntries)
    (hgrant : m.type = .requestVoteResp → m.reject = false → m.isPreVote = false →
      r'.votedFor = m.recipient) : Posts r r' := by
  intro m' hm'
  rw [h] at hm'
  rcases List.mem_append.mp hm' with hold | hnew
  · exact .inl hold
  · rw [List.mem_singleton.mp hnew]
    exact .inr ⟨hterm, fun hno => absurd hno htype, hgrant⟩

theorem Posts.after {r₁ : Raft} (h : Posts r₁ r') (hmsgs : r₁.msgs = r.msgs)
    (hlog : r₁.log = r.log) : Posts r r' := by
  intro m hm
  rcases h m hm with hold | ⟨hterm, hbroadcast, hgrant⟩
  · exact .inl (hmsgs ▸ hold)
  · exact .inr ⟨hterm, hlog ▸ hbroadcast, hgrant⟩

theorem broadcastHeartbeat_posts {r₁ : Raft} (h : r₁.broadcastHeartbeat = some r')
    (hlead : r₁.state = .leader) (hmsgs : r₁.msgs = r.msgs)
    (hlog : r₁.log.length ≤ r.log.length + 1) : Posts r r' := by
  obtain ⟨out, hout, rfl⟩ := broadcastHeartbeat_eq h
  intro m hm
  rcases List.mem_append.mp hm with hold | hnew
  · exact .inl (hmsgs ▸ hold)
  · obtain ⟨peer, hpeer, hfor⟩ := exists_of_mem_mapM hout hnew
    have hfrom : r₁.appendEntriesFor peer = some m := hfor
    obtain ⟨entries, rfl⟩ := appendEntriesFor_eq hfor
    exact .inr ⟨rfl, fun _ => ⟨hlead, hlog, peer, hpeer, hfrom⟩, nofun⟩

theorem becomeLeader_posts (h : r.becomeLeader = some r') : Posts r r' := by
  have hcrowned : r.crowned.broadcastHeartbeat = some r' := h
  exact broadcastHeartbeat_posts hcrowned rfl rfl (by simp [crowned])

theorem becomeCandidate_posts (h : r.becomeCandidate = some r') : Posts r r' := by
  rcases becomeCandidate_cases h with ⟨-, h⟩ | ⟨-, rfl⟩
  · exact (becomeLeader_posts h).after rfl rfl
  · intro m hm
    rcases List.mem_append.mp hm with hold | hnew
    · exact .inl hold
    · obtain ⟨peer, -, rfl⟩ := List.mem_map.mp hnew
      exact .inr ⟨rfl, nofun, nofun⟩

theorem tick_posts (h : r.tick = some r') : Posts r r' := by
  rcases tick_cases h with ⟨hlead, h⟩ | ⟨-, h⟩
  · unfold tickHeartbeat at h
    simp only at h
    split at h
    · exact broadcastHeartbeat_posts h hlead rfl (Nat.le_succ _)
    · cases h
      exact .of_msgs rfl
  · rcases tickElection_cases h with ⟨-, rfl⟩ | ⟨-, h⟩
    · exact .of_msgs rfl
    · exact (becomeCandidate_posts h).after rfl rfl

theorem propose_posts {data : List UInt8} {index : Option Nat}
    (h : r.propose data = some (index, r')) : Posts r r' := by
  rcases propose_cases h with ⟨-, rfl⟩ | ⟨hlead, -, matchIndex, -, hcast⟩
  · exact .of_msgs rfl
  · exact broadcastHeartbeat_posts hcast hlead rfl (by simp)

theorem handleRequestVote_posts (r : Raft) (msg : Message) :
    Posts r (r.handleRequestVote msg) := by
  unfold handleRequestVote
  simp only
  split
  · exact .of_send rfl rfl nofun nofun
  · split
    · exact .of_send rfl rfl nofun (fun _ _ hno => by cases hno)
    · split
      · exact .of_send rfl rfl nofun nofun
      · split
        · exact .of_send rfl rfl nofun fun _ _ _ => rfl
        · exact .of_send rfl rfl nofun nofun

theorem handleRequestVoteResp_posts (h : r.handleRequestVoteResp msg = some r') :
    Posts r r' := by
  unfold handleRequestVoteResp at h
  split at h
  · cases h
    exact .of_msgs rfl
  · split at h
    · obtain ⟨tally, preVotes, -, -, ⟨-, h⟩ | ⟨-, rfl⟩⟩ := handlePreVoteResp_cases h
      · exact (becomeCandidate_posts h).after rfl rfl
      · exact .of_msgs rfl
    · split at h
      · cases h
        exact .of_msgs rfl
      · obtain ⟨votes, -, h⟩ := Option.bind_eq_some_iff.mp h
        simp only at h
        split at h
        · exact (becomeLeader_posts h).after rfl rfl
        · cases h
          exact .of_msgs rfl

theorem replicate_posts {reply : Message} (h : r.replicate reply msg = some r')
    (hreply : reply.type = .appendEntriesResp) (hterm : reply.term = r.currentTerm) :
    Posts r r' := by
  unfold replicate at h
  split at h
  · cases h
    exact .of_send rfl hterm (by simp [hreply]) (by simp [hreply])
  · split at h
    · cases h
      exact .of_send rfl hterm (by simp [hreply]) (by simp [hreply])
    · obtain ⟨log, -, h⟩ := Option.bind_eq_some_iff.mp h
      rw [followCommit_eq] at h
      cases h
      exact .of_send rfl hterm (by simp [hreply]) (by simp [hreply])

theorem handleAppendEntries_posts (h : r.handleAppendEntries msg = some r') : Posts r r' := by
  unfold handleAppendEntries at h
  simp only at h
  split at h
  · cases h
    exact .of_send rfl rfl nofun nofun
  · split at h
    · obtain ⟨r₁, hr₁, h⟩ := Option.bind_eq_some_iff.mp h
      cases becomeFollower_eq_some hr₁
      exact (replicate_posts h rfl rfl).after rfl rfl
    · rw [Option.bind_eq_bind, Option.bind_some] at h
      exact (replicate_posts h rfl rfl).after rfl rfl

theorem handleAppendEntriesResp_posts (h : r.handleAppendEntriesResp msg = some r') :
    Posts r r' := by
  rcases handleAppendEntriesResp_cases h with ⟨rfl, -⟩ | ⟨-, -, -, -, -, -, rfl⟩ |
    ⟨-, -, -, matchIndex, nextIndex, -, rfl⟩
  · exact .of_msgs rfl
  · exact .of_msgs rfl
  · rw [maybeAdvanceCommit_frame]
    exact .of_msgs rfl

theorem step_posts (h : r.step msg = some r') : Posts r r' := by
  obtain ⟨r₁, hr₁, h⟩ := Option.bind_eq_some_iff.mp h
  have hobserve : r₁.msgs = r.msgs ∧ r₁.log = r.log := by
    unfold observeTerm at hr₁
    split at hr₁
    · rw [becomeFollower_eq_some hr₁]
      exact ⟨rfl, rfl⟩
    · cases hr₁
      exact ⟨rfl, rfl⟩
  refine Posts.after ?_ hobserve.1 hobserve.2
  unfold handle at h
  split at h
  · cases h
    exact handleRequestVote_posts r₁ msg
  · exact handleRequestVoteResp_posts h
  · exact handleAppendEntries_posts h
  · exact handleAppendEntriesResp_posts h
  · cases h
    exact .of_msgs rfl

end Raft

theorem Node.act_posts {env : Env} {n n' : Node} {input : Input} (hempty : n.raft.msgs = [])
    (h : n.act env input = some n') : ∀ m ∈ n'.raft.msgs, Raft.Posted n.raft n'.raft m := by
  obtain ⟨r, lastApplied, hperforms, hraft, -⟩ := Node.act_performs h
  have hposts : n.raft.Posts r := by
    cases hperforms with
    | tick h => exact Raft.tick_posts h
    | propose h => exact Raft.propose_posts h
    | step _ h => exact Raft.step_posts h
    | join =>
      apply Raft.Posts.of_msgs
      rw [(Raft.addPeer_frame n.raft _).1]
  intro m hm
  rw [hraft] at hm ⊢
  rcases hposts m hm with hold | ⟨hterm, hbroadcast, hgrant⟩
  · rw [hempty] at hold
    cases hold
  · exact ⟨hterm, hbroadcast, hgrant⟩

end Phalanx
