import Phalanx.Raft.Stopwatch

/-! What happens to the term of an instance. A message can raise it to any `uint64` value,
and an election counts it up without looking, so the election after the last value starts
again at zero. -/
namespace Phalanx

open Go

def Op.InRange : Op → Prop
  | .step msg => msg.term < uint64Size
  | _ => True

instance : (op : Op) → Decidable op.InRange
  | .step _ => inferInstanceAs (Decidable (_ < _))
  | .tick | .propose _ | .addPeer _ | .messages | .applicableEntries =>
    inferInstanceAs (Decidable True)

namespace Raft

variable {r r₁ r' : Raft} {msg : Message} {op : Op}

/-- The instance as `becomeCandidate` finds it, where a call gets there: the election clock
has run out, or a response completes the quorum of pre-votes. -/
def stands (r : Raft) : Op → Option Raft
  | .tick =>
    if r.state ≠ .leader ∧ r.electionTimeout ≤ r.electionElapsed + 1 then
      some { r with electionElapsed := 0, leaderActive := false }
    else none
  | .step msg =>
    if msg.type = .requestVoteResp ∧ msg.isPreVote = true ∧ r.state = .candidate then do
      let preVotes ← r.preTally.write msg.sender (!msg.reject)
      if r.quorumSize ≤ preVotes.trueKeys.card then some { r with preVotes } else none
    else none
  | _ => none

def Unspent (r : Raft) (op : Op) : Prop :=
  (r.stands op).isSome = true → r.currentTerm < uint64Size - 1

instance (r : Raft) (op : Op) : Decidable (r.Unspent op) := inferInstanceAs (Decidable (_ → _))

theorem stands_tick_cases (h : r.stands .tick = some r₁) :
    r.state ≠ .leader ∧ r.electionTimeout ≤ r.electionElapsed + 1 ∧
      r₁ = { r with electionElapsed := 0, leaderActive := false } := by
  rw [stands] at h
  split at h
  next hdue =>
    cases h
    exact ⟨hdue.1, hdue.2, rfl⟩
  next => cases h

theorem stands_step_cases (h : r.stands (.step msg) = some r₁) :
    msg.type = .requestVoteResp ∧ msg.isPreVote = true ∧ r.state = .candidate ∧
      ∃ preVotes, r.preTally.write msg.sender (!msg.reject) = some preVotes ∧
        r.quorumSize ≤ preVotes.trueKeys.card ∧ r₁ = { r with preVotes } := by
  rw [stands] at h
  split at h
  next hresp =>
    obtain ⟨preVotes, hwrite, h⟩ := Option.bind_eq_some_iff.mp h
    split at h
    next hquorum =>
      cases h
      exact ⟨hresp.1, hresp.2.1, hresp.2.2, preVotes, hwrite, hquorum, rfl⟩
    next => cases h
  next => cases h

theorem step_preVoteResp (htype : msg.type = .requestVoteResp) (hpre : msg.isPreVote = true)
    (hstate : r.state = .candidate) : r.step msg = r.handlePreVoteResp msg := by
  rw [step_preVote hpre (.inr htype), handle, htype]
  simp only [handleRequestVoteResp, hstate, hpre, ne_eq, not_true_eq_false, if_false, if_true]

theorem perform_of_stands (h : r.stands op = some r₁) : r.perform op = r₁.becomeCandidate := by
  cases op with
  | tick =>
    obtain ⟨hstate, hdue, rfl⟩ := stands_tick_cases h
    rw [perform, tick_of_not_leader hstate, tickElection]
    exact if_pos hdue
  | step msg =>
    obtain ⟨htype, hpre, hstate, preVotes, hwrite, hquorum, rfl⟩ := stands_step_cases h
    rw [perform, step_preVoteResp htype hpre hstate, handlePreVoteResp_eq, hwrite,
      Option.bind_some, if_pos hquorum]
  | _ => cases h

theorem stands_frame (h : r.stands op = some r₁) :
    r₁.currentTerm = r.currentTerm ∧ r₁.id = r.id ∧
      r₁.baseElectionTimeout = r.baseElectionTimeout := by
  cases op with
  | tick =>
    obtain ⟨-, -, rfl⟩ := stands_tick_cases h
    exact ⟨rfl, rfl, rfl⟩
  | step msg =>
    obtain ⟨-, -, -, preVotes, -, -, rfl⟩ := stands_step_cases h
    exact ⟨rfl, rfl, rfl⟩
  | _ => cases h

theorem ClockAt.term {elapsed : Int} (h : ClockAt r r' elapsed) :
    r'.currentTerm = r.currentTerm := by
  by_contra hmoved
  exact of_decide_eq_false h.seated (.inl hmoved)

theorem perform_term (h : r.perform op = some r') :
    r'.currentTerm = r.currentTerm ∨
      (∃ msg, op = .step msg ∧ r.currentTerm < msg.term ∧ r'.currentTerm = msg.term ∧
        r'.state = .follower) ∨
      ∃ r₁, r.stands op = some r₁ := by
  cases op with
  | tick =>
    rcases tick_cases h with ⟨-, h⟩ | ⟨hstate, h⟩
    · obtain ⟨heartbeatElapsed, heartbeatAcked, msgs, rfl⟩ := tickHeartbeat_frame h
      exact .inl rfl
    · rcases tickElection_cases h with ⟨-, rfl⟩ | ⟨hdue, -⟩
      · exact .inl rfl
      · exact .inr (.inr ⟨_, if_pos ⟨hstate, hdue⟩⟩)
  | step msg =>
    rcases step_cases h with ⟨-, hreal⟩ | ⟨-, -, -, reject, rfl⟩ |
      ⟨hpre, htype, rfl | ⟨hstate, hresp⟩⟩
    · have hmoves : Moves (fun m => m = { msg with isPreVote := false }) (fun _ => False) r r' :=
        step_moves rfl rfl hreal
      rcases hmoves.term_cases fun _ hno => hno with hsame | ⟨m, rfl, hlater, hterm⟩
      · exact .inl hsame
      · refine .inr (.inl ⟨msg, rfl, hlater, hterm, ?_⟩)
        by_contra hoffice
        have hsame := (hmoves.keeps_office (fun _ hno => hno) hoffice).2
        exact Nat.ne_of_gt hlater (hterm.symm.trans hsame)
    · exact .inl rfl
    · exact .inl rfl
    · rw [handlePreVoteResp_eq] at hresp
      obtain ⟨preVotes, hwrite, hresp⟩ := Option.bind_eq_some_iff.mp hresp
      split at hresp
      next hquorum =>
        refine .inr (.inr ⟨{ r with preVotes }, ?_⟩)
        rw [stands, if_pos ⟨htype, hpre, hstate⟩, hwrite]
        exact if_pos hquorum
      next =>
        cases hresp
        exact .inl rfl
  | _ => exact .inl (perform_clock Op.noConfusion (fun _ => Op.noConfusion) h).term

theorem starts_iff_stands (h : r.perform op = some r') :
    StartsElection r r' ↔ (r.stands op).isSome = true := by
  constructor
  · intro hstarts
    rcases perform_term h with hsame | ⟨msg, -, -, -, hfollower⟩ | ⟨r₁, hstands⟩
    · exact absurd (hstarts.1.symm.trans hsame) (succ64_ne _)
    · exact absurd hfollower hstarts.2.2
    · rw [hstands]
      rfl
  · intro hsome
    obtain ⟨r₁, hstands⟩ := Option.isSome_iff_exists.mp hsome
    obtain ⟨hterm, hid, -⟩ := stands_frame hstands
    exact becomeCandidate_starts ((perform_of_stands hstands).symm.trans h) hterm hid

theorem perform_base (h : r.perform op = some r') :
    r'.baseElectionTimeout = r.baseElectionTimeout := by
  cases op with
  | tick => exact (tick_clock h).elim (fun hdrawn => hdrawn.base) fun hkept => hkept.2.base
  | step msg => exact (step_clock h).elim (fun hdrawn => hdrawn.base) fun hkept => hkept.base
  | _ => exact (perform_clock Op.noConfusion (fun _ => Op.noConfusion) h).base

theorem succ64_lt (x : Nat) : succ64 x < uint64Size := Nat.mod_lt _ (by decide)

theorem stands_returns (hbase : 0 < r.baseElectionTimeout) (h : r.stands op = some r₁) :
    ∃ r', r₁.becomeCandidate = some r' ∧ r.perform op = some r' ∧
      r'.currentTerm = succ64 r.currentTerm := by
  obtain ⟨hterm, -, hsame⟩ := stands_frame h
  obtain ⟨r', hr'⟩ := becomeCandidate_total (r := r₁) (hsame.symm ▸ hbase)
  exact ⟨r', hr', (perform_of_stands h).trans hr', hterm ▸ (becomeCandidate_frame hr').1⟩

/-- An instance whose term is a `uint64`, and whose election clock can be drawn. -/
structure Clocked (r : Raft) : Prop where
  term : r.currentTerm < uint64Size
  base : 0 < r.baseElectionTimeout

theorem Clocked.perform (h : r.Clocked) (hrange : op.InRange) (hunspent : r.Unspent op)
    (hperform : r.perform op = some r') : r'.Clocked ∧ r.currentTerm ≤ r'.currentTerm := by
  have hbase : 0 < r'.baseElectionTimeout := (perform_base hperform).symm ▸ h.base
  rcases perform_term hperform with hsame | ⟨msg, rfl, hlater, hterm, -⟩ | ⟨r₁, hstands⟩
  · exact ⟨⟨hsame.symm ▸ h.term, hbase⟩, hsame.ge⟩
  · exact ⟨⟨hterm.symm ▸ hrange, hbase⟩, hterm ▸ hlater.le⟩
  · obtain ⟨r₂, -, hr₂, hterm⟩ := stands_returns h.base hstands
    obtain rfl := Option.some.inj (hperform.symm.trans hr₂)
    refine ⟨⟨hterm.symm ▸ succ64_lt _, hbase⟩, ?_⟩
    rw [hterm, succ64_of_lt (hunspent (hstands ▸ rfl))]
    exact Nat.le_succ _

theorem Clocked.run (h : r.Clocked)
    (hlater : Reachable (some r) Raft.perform (fun r op => op.InRange ∧ r.Unspent op) r') :
    r'.Clocked ∧ r.currentTerm ≤ r'.currentTerm := by
  induction hlater with
  | start h' =>
    cases h'
    exact ⟨h, le_rfl⟩
  | step _ hok hperform ih =>
    obtain ⟨hclocked, hrises⟩ := ih.1.perform hok.1 hok.2 hperform
    exact ⟨hclocked, ih.2.trans hrises⟩

theorem Run.clocked {newSource : Int → Nat → Nat} {cfg : Config}
    (hcfg : cfg.initialTerm < uint64Size)
    (hrun : Run newSource cfg (fun r op => op.InRange ∧ r.Unspent op) r) : r.Clocked := by
  obtain ⟨r₀, hnew, hlater⟩ := hrun.origin
  obtain ⟨rand, hpos, rfl⟩ := newRaft_eq hnew
  exact (Clocked.run ⟨hcfg, hpos⟩ hlater).1

end Raft

/-- In the runs with any messages where no election starts in the last term, no call takes
the term back, and every election returns in a later term. -/
theorem terms_never_go_back {newSource : Int → Nat → Nat} {cfg : Config} {r r' : Raft}
    (hcfg : cfg.initialTerm < uint64Size)
    (hrun : Raft.Run newSource cfg (fun r op => op.InRange ∧ r.Unspent op) r)
    (hlater : Reachable (some r) Raft.perform (fun r op => op.InRange ∧ r.Unspent op) r') :
    r.currentTerm ≤ r'.currentTerm ∧
      ∀ op r₁, r'.Unspent op → r'.stands op = some r₁ →
        ∃ r₂, r₁.becomeCandidate = some r₂ ∧ r'.perform op = some r₂ ∧
          r'.currentTerm < r₂.currentTerm := by
  obtain ⟨hclocked, hrises⟩ := (hrun.clocked hcfg).run hlater
  refine ⟨hrises, fun op r₁ hunspent hstands => ?_⟩
  obtain ⟨r₂, hcand, hr₂, hterm⟩ := Raft.stands_returns hclocked.base hstands
  refine ⟨r₂, hcand, hr₂, ?_⟩
  rw [hterm, succ64_of_lt (hunspent (hstands ▸ rfl))]
  exact Nat.lt_succ_self _

/-- A follower that a message takes to the last term but one, and its own clock to the last. -/
theorem terms_never_go_back_near_top :
    ∃ r r' r₂ : Raft, Raft.Run (fun _ _ => 0)
        { id := "a", peers := ["b", "c"], electionTimeout := 2, heartbeatTimeout := 1 }
        (fun r op => op.InRange ∧ r.Unspent op) r ∧
      Reachable (some r) Raft.perform (fun r op => op.InRange ∧ r.Unspent op) r' ∧
      r.currentTerm = 0 ∧ r.currentTerm ≤ r'.currentTerm ∧ r'.currentTerm = uint64Size - 2 ∧
      r'.tick = some r₂ ∧ r'.currentTerm < r₂.currentTerm := by
  obtain ⟨r, hrun, hterm, hany⟩ : ∃ r, Raft.Run (fun _ _ => 0)
      { id := "a", peers := ["b", "c"], electionTimeout := 2, heartbeatTimeout := 1 }
      (fun r op => op.InRange ∧ r.Unspent op) r ∧ r.currentTerm = 0 ∧
      (runFrom (some r) Raft.perform (fun r op => op.InRange ∧ r.Unspent op)
        [.step { type := .appendEntries, sender := "b", recipient := "a", term := uint64Size - 2 },
          .tick]).any
        (fun r' => decide (r'.currentTerm = uint64Size - 2 ∧ (r'.stands .tick).isSome = true)) =
          true := Reachable.of_any [] rfl
  obtain ⟨r', hlater, hterm', hsome⟩ := Reachable.of_any _ hany
  obtain ⟨r₁, hstands⟩ := Option.isSome_iff_exists.mp hsome
  obtain ⟨hle, helection⟩ := terms_never_go_back (by decide) hrun hlater
  have hunspent : r'.Unspent .tick := fun _ => hterm' ▸ by decide
  obtain ⟨r₂, -, htick, hlt⟩ := helection .tick r₁ hunspent hstands
  exact ⟨r, r', r₂, hrun, hlater, hterm, hle, hterm', htick, hlt⟩

/-- After a message of the last term the election clock takes a follower back to term zero. -/
theorem election_wraps_term :
    ∃ r r₁ r' : Raft, Raft.Run (fun _ _ => 0)
        { id := "a", peers := ["b", "c"], electionTimeout := 1, heartbeatTimeout := 1 }
        (fun _ op => op.InRange) r ∧
      r.currentTerm = uint64Size - 1 ∧ r.stands .tick = some r₁ ∧
      r₁.becomeCandidate = some r' ∧ r.tick = some r' ∧ r'.currentTerm = 0 := by
  obtain ⟨r, hrun, hterm, hbase, hsome⟩ : ∃ r, Raft.Run (fun _ _ => 0)
      { id := "a", peers := ["b", "c"], electionTimeout := 1, heartbeatTimeout := 1 }
      (fun _ op => op.InRange) r ∧ r.currentTerm = uint64Size - 1 ∧ 0 < r.baseElectionTimeout ∧
      (r.stands .tick).isSome = true :=
    Reachable.of_any
      [.step { type := .appendEntries, sender := "b", recipient := "a", term := uint64Size - 1 }]
      rfl
  obtain ⟨r₁, hstands⟩ := Option.isSome_iff_exists.mp hsome
  obtain ⟨r', hcand, htick, hwraps⟩ := Raft.stands_returns hbase hstands
  refine ⟨r, r₁, r', hrun, hterm, hstands, hcand, htick, ?_⟩
  rw [hwraps, hterm]
  rfl

end Phalanx
