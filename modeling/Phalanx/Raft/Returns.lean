import Phalanx.Raft.Reference

/-! Operations that return. A panic in `raft.go` is a slice bound past the log, a write
to a nil map or a timeout with nothing to draw from; an instance whose log is indexed
and that carries the maps of its state meets none of them. -/
namespace Phalanx

open Go

namespace Raft

variable {r r' : Raft} {msg : Message}

/-- The maps that the state of an instance asks for have been made. -/
structure Equipped (r : Raft) : Prop where
  base : 0 < r.baseElectionTimeout
  votes : r.state = .candidate → r.votes.table.isSome = true
  cursors : r.state = .leader → r.nextIndex.table.isSome = true ∧ r.matchIndex.table.isSome = true

theorem Equipped.of_follower (hbase : 0 < r.baseElectionTimeout) (hstate : r.state = .follower) :
    Equipped r where
  base := hbase
  votes := fun hno => by simp [hstate] at hno
  cursors := fun hno => by simp [hstate] at hno

theorem exists_mapM {α β : Type} {f : α → Option β} {l : List α} (h : ∀ a ∈ l, ∃ b, f a = some b) :
    ∃ out, l.mapM f = some out := by
  induction l with
  | nil => exact ⟨[], rfl⟩
  | cons a rest ih =>
    obtain ⟨b, hb⟩ := h a List.mem_cons_self
    obtain ⟨out, hout⟩ := ih fun a' ha' => h a' (List.mem_cons_of_mem a ha')
    exact ⟨b :: out, by simp [List.mapM_cons, hb, hout]⟩

theorem appendEntriesFor_returns (hlog : Indexed r.log) (peer : String) :
    ∃ m, r.appendEntriesFor peer = some m := by
  unfold appendEntriesFor
  simp only [lastLogIndex_eq hlog]
  split
  next hle =>
    rw [if_pos (by simp only [slots, List.length_cons]; omega)]
    exact ⟨_, rfl⟩
  next => exact ⟨_, rfl⟩

theorem broadcastHeartbeat_returns (hlog : Indexed r.log) (h : r.Equipped) :
    ∃ r', r.broadcastHeartbeat = some r' ∧ r'.Equipped := by
  obtain ⟨out, hout⟩ := exists_mapM fun peer (_ : peer ∈ r.peers) =>
    appendEntriesFor_returns hlog peer
  refine ⟨{ r with msgs := r.msgs ++ out }, ?_, h.base, h.votes, h.cursors⟩
  rw [broadcastHeartbeat, hout]
  rfl

theorem becomeLeader_returns (hlog : Indexed r.log) (hbase : 0 < r.baseElectionTimeout) :
    ∃ r', r.becomeLeader = some r' ∧ r'.Equipped := by
  have hcrowned : r.crowned.Equipped := ⟨hbase, nofun, fun _ => ⟨rfl, rfl⟩⟩
  refine broadcastHeartbeat_returns (hlog.concat ?_) hcrowned
  rw [lastLogIndex_eq hlog]

theorem becomeCandidate_returns (hlog : Indexed r.log) (hbase : 0 < r.baseElectionTimeout) :
    ∃ r', r.becomeCandidate = some r' ∧ r'.Equipped := by
  rw [becomeCandidate_eq, if_pos hbase]
  split
  · exact becomeLeader_returns hlog hbase
  · exact ⟨_, rfl, hbase, fun _ => rfl, fun hno => NodeState.noConfusion hno⟩

theorem tick_returns (hlog : Indexed r.log) (h : r.Equipped) :
    ∃ r', r.tick = some r' ∧ r'.Equipped := by
  have helection : ∃ r', r.tickElection = some r' ∧ r'.Equipped := by
    unfold tickElection
    simp only
    split
    · exact becomeCandidate_returns hlog h.base
    · exact ⟨_, rfl, h.base, h.votes, h.cursors⟩
  unfold tick
  split
  · exact helection
  · exact helection
  · unfold tickHeartbeat
    simp only
    split
    · exact broadcastHeartbeat_returns hlog ⟨h.base, h.votes, h.cursors⟩
    · exact ⟨_, rfl, h.base, h.votes, h.cursors⟩

theorem propose_returns (hlog : Indexed r.log) (h : r.Equipped) (data : List UInt8) :
    ∃ index r', r.propose data = some (index, r') ∧ r'.Equipped := by
  unfold propose
  split
  · exact ⟨none, r, rfl, h⟩
  next hstate =>
    simp only [ne_eq, Decidable.not_not] at hstate
    obtain ⟨hnext, hmatch⟩ := h.cursors hstate
    obtain ⟨matchIndex, hwrite, hmade⟩ := GoMap.write_of_made hmatch r.id (r.lastLogIndex + 1)
    obtain ⟨table, htable⟩ := Option.isSome_iff_exists.mp hmatch
    have hentry :
        Indexed (r.log ++ [{ index := r.lastLogIndex + 1, term := r.currentTerm, data }]) :=
      hlog.concat (by rw [lastLogIndex_eq hlog])
    have hready : Equipped { r with
        log := r.log ++ [{ index := r.lastLogIndex + 1, term := r.currentTerm, data }]
        matchIndex } := ⟨h.base, h.votes, fun _ => ⟨hnext, hmade⟩⟩
    obtain ⟨r', hcast, hequipped⟩ := broadcastHeartbeat_returns hentry hready
    refine ⟨some (r.lastLogIndex + 1), r', ?_, hequipped⟩
    simp only [htable, hwrite, Option.bind_eq_bind, Option.bind_some, hcast]
    rfl

theorem handleRequestVote_equipped (h : r.Equipped) (msg : Message) :
    (r.handleRequestVote msg).Equipped := by
  unfold handleRequestVote
  simp only
  split
  · exact ⟨h.base, h.votes, h.cursors⟩
  · split
    · exact ⟨h.base, h.votes, h.cursors⟩
    · split
      · exact ⟨h.base, h.votes, h.cursors⟩
      · split <;> exact ⟨h.base, h.votes, h.cursors⟩

theorem handlePreVoteResp_returns (hlog : Indexed r.log) (h : r.Equipped) (msg : Message) :
    ∃ r', r.handlePreVoteResp msg = some r' ∧ r'.Equipped := by
  have hmade : r.preTally.table.isSome = true := by
    unfold preTally
    split
    · rfl
    next htable => rw [htable]; rfl
  obtain ⟨preVotes, hwrite, -⟩ := GoMap.write_of_made hmade msg.sender (!msg.reject)
  rw [handlePreVoteResp_eq, hwrite, Option.bind_some]
  split
  · exact becomeCandidate_returns hlog h.base
  · exact ⟨_, rfl, h.base, h.votes, h.cursors⟩

theorem handleRequestVoteResp_returns (hlog : Indexed r.log) (h : r.Equipped) (msg : Message) :
    ∃ r', r.handleRequestVoteResp msg = some r' ∧ r'.Equipped := by
  unfold handleRequestVoteResp
  split
  · exact ⟨r, rfl, h⟩
  next hstate =>
    simp only [ne_eq, Decidable.not_not] at hstate
    split
    · exact handlePreVoteResp_returns hlog h msg
    · split
      · exact ⟨r, rfl, h⟩
      · obtain ⟨votes, hwrite, hmade⟩ :=
          GoMap.write_of_made (h.votes hstate) msg.sender (!msg.reject)
        rw [hwrite, Option.bind_eq_bind, Option.bind_some]
        simp only
        split
        · exact becomeLeader_returns hlog h.base
        · exact ⟨_, rfl, h.base, fun _ => hmade, h.cursors⟩

theorem handleAppendEntriesResp_returns (h : r.Equipped) (msg : Message) :
    ∃ r', r.handleAppendEntriesResp msg = some r' ∧ r'.Equipped := by
  unfold handleAppendEntriesResp
  split
  · exact ⟨r, rfl, h⟩
  next hstate =>
    simp only [ne_eq, Decidable.not_not] at hstate
    obtain ⟨hnext, hmatch⟩ := h.cursors hstate
    have haim : ∀ next, ∃ r', (do
        let nextIndex ← r.nextIndex.write msg.sender next
        pure { r with nextIndex } : Option Raft) = some r' ∧ r'.Equipped := by
      intro next
      obtain ⟨nextIndex, hwrite, hmade⟩ := GoMap.write_of_made hnext msg.sender next
      rw [hwrite]
      exact ⟨_, rfl, h.base, h.votes, fun _ => ⟨hmade, hmatch⟩⟩
    split
    · exact ⟨r, rfl, h⟩
    · split
      · split
        · exact haim _
        · split
          · exact haim _
          · exact ⟨r, rfl, h⟩
      · simp only
        split
        · obtain ⟨matchIndex, hwrite, hmade⟩ :=
            GoMap.write_of_made hmatch msg.sender msg.index
          obtain ⟨nextIndex, hwrite', hmade'⟩ :=
            GoMap.write_of_made hnext msg.sender (msg.index + 1)
          simp only [hwrite, hwrite', Option.bind_eq_bind, Option.bind_some]
          refine ⟨_, rfl, ?_⟩
          rw [maybeAdvanceCommit_frame]
          exact ⟨h.base, h.votes, fun _ => ⟨hmade', hmade⟩⟩
        · refine ⟨_, rfl, ?_⟩
          rw [maybeAdvanceCommit_frame]
          exact ⟨h.base, h.votes, h.cursors⟩

theorem step_appendEntries_indexed (htype : msg.type = .appendEntries) (hlog : Indexed r.log)
    (hsent : r.currentTerm ≤ msg.term → r.passes msg → Numbered msg.prevLogIndex msg.entries)
    (h : r.step msg = some r') : Indexed r'.log := by
  rcases step_appendEntries_log htype h with hsame | ⟨hterm, hpasses, hloop⟩
  · rwa [hsame]
  · have hwithin := passes_within hlog hpasses
    rw [appendLoop_eq hlog _ _ hwithin] at hloop
    rw [← Option.some.inj hloop]
    exact hlog.spliced hwithin (hsent hterm hpasses)

theorem step_returns (hlog : Indexed r.log) (h : r.Equipped) (msg : Message) :
    ∃ r', r.step msg = some r' ∧ r'.Equipped := by
  by_cases htype : msg.type = .appendEntries
  · rw [step_appendEntries h.base htype]
    split
    · exact ⟨_, rfl, h.base, h.votes, h.cursors⟩
    · have hframe := following_frame r msg
      have hbase : 0 < (r.following msg).baseElectionTimeout := by
        unfold following heeding
        split <;> split <;> exact h.base
      have hstate : (r.following msg).state = .follower := heeding_state _ msg
      by_cases hpasses : (r.following msg).passes msg
      · rw [replicate_passes (hframe.1 ▸ hlog) hpasses, accepting_eq]
        exact ⟨_, rfl, .of_follower hbase hstate⟩
      · obtain ⟨hint, -, hreject⟩ := replicate_fails hpasses
        rw [hreject]
        exact ⟨_, rfl, .of_follower hbase hstate⟩
  · have hobserve : ∃ r₁, r.observeTerm msg = some r₁ ∧ r₁.Equipped ∧ r₁.log = r.log := by
      unfold observeTerm
      split
      · rw [becomeFollower_of_base h.base]
        exact ⟨_, rfl, .of_follower h.base rfl, rfl⟩
      · exact ⟨r, rfl, h, rfl⟩
    obtain ⟨r₁, hr₁, hequipped, hsame⟩ := hobserve
    unfold step
    rw [hr₁, Option.bind_eq_bind, Option.bind_some]
    have hlog₁ : Indexed r₁.log := hsame ▸ hlog
    unfold handle
    split
    · exact ⟨_, rfl, handleRequestVote_equipped hequipped msg⟩
    · exact handleRequestVoteResp_returns hlog₁ hequipped msg
    next hno => exact absurd hno htype
    · exact handleAppendEntriesResp_returns hequipped msg
    · exact ⟨r₁, rfl, hequipped⟩

end Raft
end Phalanx
