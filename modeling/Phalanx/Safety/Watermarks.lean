import Phalanx.Raft.Repeat
import Phalanx.Raft.Returns

/-! The two watermarks of a log, `commitIndex` and `lastApplied`. A follower moves its
commit index to the smaller of the leader's and the last entry of the message, once the
leader's is ahead of its own; a message that ends before the follower's own commit index
takes it back. A log that is numbered at first stays so under contiguous messages: then every
position is below the length of the log, and every call returns. -/
namespace Phalanx

open Go

/-- The entries of an AppendEntries continue its previous index, within `uint64`. -/
def Op.Contiguous : Op → Prop
  | .step msg => msg.type = .appendEntries → Numbered msg.prevLogIndex msg.entries ∧
      msg.prevLogIndex + msg.entries.length < uint64Size
  | _ => True

instance : (op : Op) → Decidable op.Contiguous
  | .step _ => inferInstanceAs (Decidable (_ → _))
  | .tick | .propose _ | .addPeer _ | .messages | .applicableEntries =>
    inferInstanceAs (Decidable True)

namespace Raft

variable {r r' : Raft} {msg : Message}

/-- An AppendEntries that is accepted and tells of more commits reaches the commit index. -/
def Covered (r : Raft) : Op → Prop
  | .step msg => msg.type = .appendEntries → r.currentTerm ≤ msg.term → r.passes msg →
      r.commitIndex < msg.leaderCommit → r.commitIndex ≤ msg.prevLogIndex + msg.entries.length
  | _ => True

instance (r : Raft) : (op : Op) → Decidable (r.Covered op)
  | .step _ => inferInstanceAs (Decidable (_ → _))
  | .tick | .propose _ | .addPeer _ | .messages | .applicableEntries =>
    inferInstanceAs (Decidable True)

theorem replicate_commitIndex {reply : Message} (h : r.replicate reply msg = some r') :
    r'.lastApplied = r.lastApplied ∧ (r'.commitIndex = r.commitIndex ∨
      r.passes msg ∧ r'.commitIndex = (r.followCommit msg).commitIndex) := by
  by_cases hpasses : r.passes msg
  · rw [replicate_takes hpasses] at h
    obtain ⟨log, -, rfl⟩ := Option.map_eq_some_iff.mp h
    refine ⟨?_, .inr ⟨hpasses, ?_⟩⟩
    · rw [followCommit_eq]
      rfl
    · simp [send, commitIndex_followCommit]
  · rw [replicate_refuses hpasses] at h
    cases h
    exact ⟨rfl, .inl rfl⟩

theorem step_watermarks (hcovered : r.Covered (.step msg)) (hstep : r.step msg = some r') :
    r.commitIndex ≤ r'.commitIndex ∧ r'.lastApplied = r.lastApplied := by
  by_cases htype : msg.type = .appendEntries
  · rcases step_appendEntries_cases htype hstep with ⟨-, rfl⟩ | ⟨hterm, hreplicate⟩
    · exact ⟨le_rfl, rfl⟩
    · obtain ⟨hlog, hcommit, happlied, -⟩ := following_frame r msg
      obtain ⟨hkept, hmoved⟩ := replicate_commitIndex hreplicate
      refine ⟨?_, hkept.trans happlied⟩
      rcases hmoved with hsame | ⟨hpasses, hmoved⟩
      · omega
      · rw [hmoved, commitIndex_followCommit, hcommit]
        split
        next hmore =>
          have := hcovered htype hterm ((passes_congr hlog).mp hpasses) hmore
          omega
        next => exact le_rfl
  · obtain ⟨r₁, hmoves, -, -, hcommit, happlied⟩ := step_moves_on hstep
    rw [← hcommit, ← happlied]
    refine ⟨hmoves.commitIndex_le ?_, hmoves.lastApplied_eq⟩
    rintro m rfl
    exact htype

theorem step_indexed (hsent : Op.Contiguous (.step msg)) (hlog : Indexed r.log)
    (hstep : r.step msg = some r') : Indexed r'.log := by
  by_cases htype : msg.type = .appendEntries
  · exact step_appendEntries_indexed htype hlog (fun _ _ => (hsent htype).1) hstep
  · obtain ⟨r₁, hmoves, -, hsame, -⟩ := step_moves_on hstep
    refine hmoves.indexed ?_ (hsame ▸ hlog)
    rintro m rfl
    exact htype

theorem perform_returns {op : Op} (hsent : op.Contiguous) (hlog : Indexed r.log)
    (h : r.Equipped) : ∃ r', r.perform op = some r' ∧ Indexed r'.log ∧ r'.Equipped := by
  cases op with
  | tick =>
    obtain ⟨r', htick, hequipped⟩ := tick_returns hlog h
    have hmoves : Moves (fun _ => False) (fun _ => True) r r' := tick_moves trivial htick
    exact ⟨r', htick, hmoves.indexed (fun _ hno => hno.elim) hlog, hequipped⟩
  | step msg =>
    obtain ⟨r', hstep, hequipped⟩ := step_returns hlog h msg
    exact ⟨r', hstep, step_indexed hsent hlog hstep, hequipped⟩
  | propose data =>
    obtain ⟨index, r', hpropose, hequipped⟩ := propose_returns hlog h data
    have hmoves : Moves (fun _ => False) (fun _ => True) r r' := propose_moves hpropose
    refine ⟨r', ?_, hmoves.indexed (fun _ hno => hno.elim) hlog, hequipped⟩
    rw [perform, hpropose]
    rfl
  | addPeer nodeID =>
    refine ⟨_, rfl, ?_⟩
    rw [(addPeer_frame r nodeID).1]
    exact ⟨hlog, h.base, h.votes, h.cursors⟩
  | messages => exact ⟨_, rfl, hlog, h.base, h.votes, h.cursors⟩
  | applicableEntries =>
    refine ⟨_, rfl, ?_⟩
    rw [applicableEntries_eq]
    exact ⟨hlog, h.base, h.votes, h.cursors⟩

theorem applicableEntries_watermarks (r : Raft) :
    r.lastApplied ≤ r.applicableEntries.2.lastApplied ∧
      (r.lastApplied ≤ r.commitIndex → r.applicableEntries.2.lastApplied ≤ r.commitIndex) := by
  unfold applicableEntries
  split
  · exact ⟨le_rfl, fun h => h⟩
  · simp only
    split
    · split
      · exact ⟨le_rfl, fun h => h⟩
      · simp only
        omega
    · simp only
      omega

theorem perform_watermarks {op : Op} (hcovered : r.Covered op) (h : r.perform op = some r') :
    r.commitIndex ≤ r'.commitIndex ∧ r.lastApplied ≤ r'.lastApplied ∧
      (r.lastApplied ≤ r.commitIndex → r'.lastApplied ≤ r'.commitIndex) := by
  cases op with
  | tick =>
    have hmoves : Moves (fun _ => False) (fun _ => True) r r' := tick_moves trivial h
    have hcommit := hmoves.commitIndex_le fun _ hno => hno.elim
    have happlied := hmoves.lastApplied_eq
    omega
  | step msg =>
    obtain ⟨hcommit, happlied⟩ := step_watermarks hcovered h
    omega
  | propose data =>
    obtain ⟨⟨index, r₁⟩, hpropose, hr₁⟩ := Option.map_eq_some_iff.mp h
    cases hr₁
    have hmoves : Moves (fun _ => False) (fun _ => True) r r₁ := propose_moves hpropose
    have hcommit := hmoves.commitIndex_le fun _ hno => hno.elim
    have happlied := hmoves.lastApplied_eq
    simp only
    omega
  | addPeer nodeID =>
    cases h
    rw [(addPeer_frame r nodeID).1]
    exact ⟨le_rfl, le_rfl, fun h => h⟩
  | messages =>
    cases h
    exact ⟨le_rfl, le_rfl, fun h => h⟩
  | applicableEntries =>
    cases h
    obtain ⟨hgrows, hbound⟩ := applicableEntries_watermarks r
    rw [applicableEntries_eq]
    exact ⟨le_rfl, hgrows, hbound⟩

end Raft

/-- As long as no accepted AppendEntries ends before the commit index that it raises, every call
returns, neither watermark goes back, and nothing is applied that is not committed. -/
theorem commit_never_back {newSource : Int → Nat → Nat} {cfg : Config} {r : Raft}
    (hlog : Indexed cfg.initialLog)
    (hrun : Raft.Run newSource cfg (fun r op => op.Contiguous ∧ r.Covered op) r) :
    Indexed r.log ∧ r.lastApplied ≤ r.commitIndex ∧
      ∀ op, op.Contiguous → r.Covered op → ∃ r', r.perform op = some r' ∧
        r.commitIndex ≤ r'.commitIndex ∧ r.lastApplied ≤ r'.lastApplied := by
  have hkept : Indexed r.log ∧ r.Equipped ∧ r.lastApplied ≤ r.commitIndex := by
    induction hrun with
    | start h =>
      obtain ⟨rand, hbase, rfl⟩ := Raft.newRaft_eq h
      exact ⟨hlog, .of_follower hbase rfl, le_rfl⟩
    | step _ hok hperform ih =>
      obtain ⟨hindexed, hequipped, hle⟩ := ih
      obtain ⟨r', hreturns, hindexed', hequipped'⟩ :=
        Raft.perform_returns hok.1 hindexed hequipped
      cases hreturns.symm.trans hperform
      exact ⟨hindexed', hequipped', (Raft.perform_watermarks hok.2 hperform).2.2 hle⟩
  obtain ⟨hindexed, hequipped, hle⟩ := hkept
  refine ⟨hindexed, hle, fun op hsent hcovered => ?_⟩
  obtain ⟨r', hreturns, -⟩ := Raft.perform_returns hsent hindexed hequipped
  obtain ⟨hcommit, happlied, -⟩ := Raft.perform_watermarks hcovered hreturns
  exact ⟨r', hreturns, hcommit, happlied⟩

/-- A follower that catches up, applies, and hears of another commit. -/
theorem commit_never_back_heartbeat :
    ∃ r, Raft.Run (fun _ _ => 0)
        { id := "b", peers := ["a", "c"], electionTimeout := 5, heartbeatTimeout := 1 }
        (fun r op => op.Contiguous ∧ r.Covered op) r ∧
      r.commitIndex = 2 ∧ r.lastApplied = 1 ∧ r.lastApplied ≤ r.commitIndex := by
  obtain ⟨r, hrun, hcommit, happlied⟩ :
      ∃ r, Raft.Run (fun _ _ => 0)
          { id := "b", peers := ["a", "c"], electionTimeout := 5, heartbeatTimeout := 1 }
          (fun r op => op.Contiguous ∧ r.Covered op) r ∧
        r.commitIndex = 2 ∧ r.lastApplied = 1 :=
    Reachable.of_any
      [.step { type := .appendEntries, sender := "a", recipient := "b", term := 1
               entries := [⟨1, 1, [], .command⟩, ⟨2, 1, [7], .command⟩], leaderCommit := 1 },
        .applicableEntries,
        .step { type := .appendEntries, sender := "a", recipient := "b", term := 1
                prevLogIndex := 2, prevLogTerm := 1, leaderCommit := 5 }] rfl
  exact ⟨r, hrun, hcommit, happlied, (commit_never_back Indexed.nil hrun).2.1⟩

/-- A delayed heartbeat for the first entry takes the commit index from 2 back to 1. -/
theorem short_append_takes_commit_back :
    ∃ r r' op, Raft.Run (fun _ _ => 0)
        { id := "b", peers := ["a", "c"], electionTimeout := 5, heartbeatTimeout := 1 }
        (fun _ op => op.Contiguous) r ∧ op.Contiguous ∧ r.perform op = some r' ∧
      r'.commitIndex < r.commitIndex ∧ r'.commitIndex < r'.lastApplied := by
  obtain ⟨r, hrun, hback⟩ :
      ∃ r, Raft.Run (fun _ _ => 0)
          { id := "b", peers := ["a", "c"], electionTimeout := 5, heartbeatTimeout := 1 }
          (fun _ op => op.Contiguous) r ∧
        (r.perform (.step
          { type := .appendEntries, sender := "a", recipient := "b", term := 1, prevLogIndex := 1
            prevLogTerm := 1, leaderCommit := 5 })).any (fun r' =>
          decide (r'.commitIndex < r.commitIndex ∧ r'.commitIndex < r'.lastApplied)) = true :=
    Reachable.of_any
      [.step { type := .appendEntries, sender := "a", recipient := "b", term := 1
               entries := [⟨1, 1, [], .command⟩, ⟨2, 1, [7], .command⟩], leaderCommit := 2 },
        .applicableEntries] rfl
  obtain ⟨r', hperform, hless⟩ := (Option.any_eq_true _ _).mp hback
  exact ⟨r, r', _, hrun, by decide, hperform, of_decide_eq_true hless⟩

end Phalanx
