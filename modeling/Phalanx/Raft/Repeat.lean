import Phalanx.Raft.Operations
import Phalanx.Raft.Reference

/-! An AppendEntries that is delivered twice. The first delivery may step the instance
down, redraw its timeout, cut and extend its log and move its commit index; the second
takes the path of a follower of that very leader and finds everything done. -/
namespace Phalanx

open Consensus

namespace Raft

variable {r r' : Raft} {msg : Message}

theorem step_appendEntries_cases (htype : msg.type = .appendEntries) (h : r.step msg = some r') :
    msg.term < r.currentTerm ∧ r' = r.send (r.refusal msg) ∨
      r.currentTerm ≤ msg.term ∧
        (r.following msg).replicate ((r.following msg).refusal msg) msg = some r' := by
  unfold step at h
  obtain ⟨r₁, hr₁, h⟩ := Option.bind_eq_some_iff.mp h
  simp only [handle, htype] at h
  unfold observeTerm at hr₁
  simp only [htype, reduceCtorEq, or_self, and_false, not_false_eq_true, and_true, if_true] at hr₁
  unfold following
  split at hr₁
  next hlater =>
    cases becomeFollower_eq_some hr₁
    rw [handleAppendEntries_of_follower rfl rfl] at h
    refine .inr ⟨hlater.le, ?_⟩
    rwa [if_pos hlater]
  next hle =>
    cases hr₁
    rw [handleAppendEntries_eq] at h
    split at h
    next hstale => exact .inl ⟨hstale, (Option.some.inj h).symm⟩
    next hfresh =>
      refine .inr ⟨Nat.le_of_not_lt hfresh, ?_⟩
      split at h
      · rwa [if_neg hle]
      · cases h

theorem following_follower (hterm : r.currentTerm ≤ msg.term) (hsender : msg.sender ≠ None) :
    (r.following msg).state = .follower ∧ (r.following msg).currentTerm = msg.term ∧
      (r.following msg).electionElapsed = 0 ∧ (r.following msg).leaderID = msg.sender ∧
      (r.following msg).leaderActive = true := by
  have hactive : decide (msg.sender ≠ None) = true := decide_eq_true hsender
  unfold following heeding
  split
  next => exact ⟨rfl, rfl, rfl, rfl, rfl⟩
  next hle =>
    have hsame : r.currentTerm = msg.term := by omega
    split
    next hstate => exact ⟨hstate, hsame, rfl, rfl, rfl⟩
    next => exact ⟨rfl, rfl, rfl, rfl, hactive⟩

theorem step_follower (htype : msg.type = .appendEntries) (hstate : r.state = .follower)
    (hterm : r.currentTerm = msg.term) (helapsed : r.electionElapsed = 0)
    (hleader : r.leaderID = msg.sender) (hactive : r.leaderActive = true) :
    r.step msg = r.replicate (r.refusal msg) msg := by
  have hsame : r.heeding msg = r := by
    unfold heeding
    rw [if_pos hstate, ← helapsed, ← hleader, ← hactive]
  unfold step observeTerm
  rw [if_neg (by omega), Option.bind_eq_bind, Option.bind_some, handle, htype]
  simp only
  rw [handleAppendEntries_of_follower hstate hterm.symm, hsame]

theorem passes_spliced (hlog : Indexed r.log) (hlog' : Indexed r'.log) (hpasses : r.passes msg)
    (hkept : r.log.take msg.prevLogIndex <+: r'.log) : r'.passes msg := by
  unfold passes at hpasses ⊢
  rw [lastLogIndex_eq hlog] at hpasses
  rw [lastLogIndex_eq hlog']
  by_cases hzero : msg.prevLogIndex = 0
  · exact .inl hzero
  obtain ⟨hle, hterm⟩ := hpasses.resolve_left hzero
  have hlen := hkept.length_le
  rw [List.length_take] at hlen
  obtain ⟨e, he, hsame⟩ := exists_of_logTerm (Nat.pos_of_ne_zero hzero) hle
  obtain ⟨p, hp⟩ := Nat.exists_eq_succ_of_ne_zero hzero
  have he' : r'.log[p]? = some e := by
    apply getElem?_of_isPrefix hkept
    rw [List.getElem?_take_of_lt (by omega)]
    rwa [hp] at he
  refine .inr ⟨by omega, ?_⟩
  rw [← hterm, hsame, hp]
  exact logTerm_of_getElem he'

theorem accepting_again (hlog : Indexed r.log) (hsent : Numbered msg.prevLogIndex msg.entries)
    (hpasses : r.passes msg) (h : r.replicate (r.refusal msg) msg = some r') :
    ∃ reply, r'.msgs = r.msgs ++ [reply] ∧
      r'.replicate (r'.refusal msg) msg = some { r' with msgs := r'.msgs ++ [reply] } := by
  have hwithin := passes_within hlog hpasses
  have hlen : (r.log.take msg.prevLogIndex).length = msg.prevLogIndex := by
    rw [List.length_take]
    omega
  rw [replicate_passes hlog hpasses] at h
  set log := r.log.take msg.prevLogIndex ++
    splice LogEntry.term (r.log.drop msg.prevLogIndex) msg.entries with hspliced
  have heq := (Option.some.inj h).symm
  rw [accepting_eq] at heq
  have hnew : r'.log = log := by rw [heq]
  have hindexed : Indexed r'.log := hnew ▸ hlog.spliced hwithin hsent
  have hkept : r'.log.take msg.prevLogIndex ++
      splice LogEntry.term (r'.log.drop msg.prevLogIndex) msg.entries = r'.log := by
    rw [hnew, hspliced, List.take_left' hlen, List.drop_left' hlen, splice_splice]
  have hcommit :
      (followCommit { r' with log := r'.log } msg).commitIndex = r'.commitIndex := by
    have hfirst : r'.commitIndex = (followCommit { r with log } msg).commitIndex := by rw [heq]
    rw [commitIndex_followCommit] at hfirst ⊢
    simp only at hfirst
    split at hfirst <;> split <;> omega
  have hpasses' : r'.passes msg := by
    refine passes_spliced hlog hindexed hpasses ?_
    rw [hnew]
    exact List.prefix_append _ _
  refine ⟨
    { type := .appendEntriesResp, sender := r'.id, recipient := msg.sender,
      term := r'.currentTerm, index := lastIndexOf r'.log }, ?_, ?_⟩
  · rw [hnew, heq]
  · rw [replicate_passes hindexed hpasses', hkept, accepting_eq, hcommit]

theorem replicate_again (hlog : Indexed r.log) (hsent : Numbered msg.prevLogIndex msg.entries)
    (h : r.replicate (r.refusal msg) msg = some r') :
    ∃ reply, r'.msgs = r.msgs ++ [reply] ∧
      r'.replicate (r'.refusal msg) msg = some { r' with msgs := r'.msgs ++ [reply] } := by
  by_cases hpasses : r.passes msg
  · exact accepting_again hlog hsent hpasses h
  · rw [replicate_refuses hpasses] at h
    have heq := (Option.some.inj h).symm
    have hsame : r'.log = r.log := by rw [heq]; rfl
    refine ⟨{ r'.refusal msg with index := r'.hint msg }, ?_, ?_⟩
    · rw [hint_congr hsame, heq]
      rfl
    · exact replicate_refuses (mt (passes_congr hsame).mp hpasses) _

theorem replicate_returns (hlog : Indexed r.log) (msg : Message) :
    ∃ r', r.replicate (r.refusal msg) msg = some r' := by
  by_cases hpasses : r.passes msg
  · exact ⟨_, replicate_passes hlog hpasses⟩
  · exact ⟨_, replicate_refuses hpasses _⟩

/-- An AppendEntries with a sender, delivered twice, does what it does once, and is answered
the same. -/
theorem append_entries_idempotent (r : Raft) (msg : Message) (hlog : Indexed r.log)
    (htype : msg.type = .appendEntries) (hsender : msg.sender ≠ None)
    (hsent : Numbered msg.prevLogIndex msg.entries) :
    (0 < r.baseElectionTimeout → ∃ r', r.step msg = some r') ∧
      ∀ r', r.step msg = some r' → ∃ reply, r'.msgs = r.msgs ++ [reply] ∧
        r'.step msg = some { r' with msgs := r'.msgs ++ [reply] } := by
  obtain ⟨hsame, -, -, hmsgs⟩ := following_frame r msg
  refine ⟨fun hbase => ?_, fun r' hstep => ?_⟩
  · rw [step_appendEntries hbase htype]
    split
    · exact ⟨_, rfl⟩
    · exact replicate_returns (hsame.symm ▸ hlog) msg
  · rcases step_appendEntries_cases htype hstep with ⟨hstale, rfl⟩ | ⟨hfresh, hreplicate⟩
    · refine ⟨r.refusal msg, rfl, ?_⟩
      have hstale' : msg.term < (r.send (r.refusal msg)).currentTerm := hstale
      unfold step observeTerm
      rw [if_neg (by omega), Option.bind_eq_bind, Option.bind_some, handle, htype]
      simp only
      unfold handleAppendEntries
      rw [if_pos hstale']
      rfl
    · obtain ⟨hstate, hterm, helapsed, hleader, hactive⟩ := following_follower hfresh hsender
      obtain ⟨reply, hreply, hagain⟩ := replicate_again (hsame.symm ▸ hlog) hsent hreplicate
      refine ⟨reply, by rw [hreply, hmsgs], ?_⟩
      obtain ⟨log, commitIndex, msgs, hframe⟩ := replicate_frame hreplicate
      rw [step_follower htype, hagain]
      · rw [hframe]
        exact hstate
      · rw [hframe]
        exact hterm
      · rw [hframe]
        exact helapsed
      · rw [hframe]
        exact hleader
      · rw [hframe]
        exact hactive

/-- A leader of an older term that is told of a conflict, twice. -/
theorem append_entries_idempotent_deposed :
    ∃ r' reply, step
        { id := "b", currentTerm := 1, heartbeatTimeout := 1, baseElectionTimeout := 10
          peers := ["a"], rand := fun _ => 0, state := .leader
          log := [⟨1, 1, [], .command⟩, ⟨2, 1, [7], .command⟩] }
        { type := .appendEntries, sender := "a", recipient := "b", term := 2, prevLogIndex := 1
          prevLogTerm := 1, entries := [⟨2, 2, [], .command⟩], leaderCommit := 2 } = some r' ∧
      r'.msgs = [reply] ∧
      r'.step
        { type := .appendEntries, sender := "a", recipient := "b", term := 2, prevLogIndex := 1
          prevLogTerm := 1, entries := [⟨2, 2, [], .command⟩], leaderCommit := 2 } =
        some { r' with msgs := [reply, reply] } := by
  obtain ⟨hreturns, hagain⟩ := append_entries_idempotent
    { id := "b", currentTerm := 1, heartbeatTimeout := 1, baseElectionTimeout := 10
      peers := ["a"], rand := fun _ => 0, state := .leader
      log := [⟨1, 1, [], .command⟩, ⟨2, 1, [7], .command⟩] }
    { type := .appendEntries, sender := "a", recipient := "b", term := 2, prevLogIndex := 1
      prevLogTerm := 1, entries := [⟨2, 2, [], .command⟩], leaderCommit := 2 }
    (by
      intro k e he
      match k with
      | 0 | 1 => cases he; rfl
      | k + 2 => simp at he) rfl (by decide) (by
      intro j e he
      match j with
      | 0 => cases he; rfl
      | j + 1 => simp at he)
  obtain ⟨r', hstep⟩ := hreturns (by decide)
  obtain ⟨reply, hreply, hsecond⟩ := hagain r' hstep
  refine ⟨r', reply, hstep, hreply, ?_⟩
  rw [hsecond, hreply]
  rfl

end Raft
end Phalanx
