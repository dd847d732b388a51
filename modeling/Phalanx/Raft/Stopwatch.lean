import Phalanx.Raft.Repeat
import Phalanx.Raft.Timers

/-! The election clock against a stopwatch. The stopwatch is started again at each occasion
that should reset the clock, and notes the timeout at each occasion that draws one; the code
resets its counter on more paths than it redraws on, and must agree with it on every tick. -/
namespace Phalanx

open Go

namespace Raft

variable {r r' : Raft} {msg : Message}

/-- `becomeFollower` or `becomeCandidate` was called: the term moved, or an office was left. -/
def reseated (r r' : Raft) : Bool :=
  r'.currentTerm ≠ r.currentTerm ∨ r.state ≠ .follower ∧ r'.state = .follower

/-- An AppendEntries that `Step` handles as valid. -/
def hears (r : Raft) (msg : Message) : Bool :=
  msg.type = .appendEntries ∧ r.currentTerm ≤ msg.term

/-- The answer to a RequestVote that is no pre-vote was a grant. -/
def granted (msg : Message) (r' : Raft) : Bool :=
  msg.type = .requestVote ∧ msg.isPreVote = false ∧
    r'.msgs.getLast?.any fun reply => !reply.reject

theorem granted_of_type (htype : msg.type ≠ .requestVote) (r' : Raft) : granted msg r' = false :=
  decide_eq_false fun hno => htype hno.1

structure Redrawn (r r' : Raft) : Prop where
  reseated : r.reseated r' = true
  base : r'.baseElectionTimeout = r.baseElectionTimeout
  range : 0 < r.baseElectionTimeout → r.baseElectionTimeout ≤ maxElectionTimeout →
    r.baseElectionTimeout ≤ r'.electionTimeout ∧ r'.electionTimeout < 2 * r.baseElectionTimeout
  elapsed : r'.electionElapsed = 0

/-- The timeout was kept, and the election clock stands at `elapsed`. -/
structure ClockAt (r r' : Raft) (elapsed : Int) : Prop where
  seated : r.reseated r' = false
  leads : r.state = .leader → r'.state = .leader
  base : r'.baseElectionTimeout = r.baseElectionTimeout
  timeout : r'.electionTimeout = r.electionTimeout
  elapsed : r'.electionElapsed = elapsed

theorem ClockAt.of_state {elapsed : Int} (hterm : r'.currentTerm = r.currentTerm)
    (hstate : r'.state = r.state) (hbase : r'.baseElectionTimeout = r.baseElectionTimeout)
    (htimeout : r'.electionTimeout = r.electionTimeout) (helapsed : r'.electionElapsed = elapsed) :
    ClockAt r r' elapsed where
  seated := by simp [reseated, hterm, hstate]
  leads := fun hlead => hstate.trans hlead
  base := hbase
  timeout := htimeout
  elapsed := helapsed

theorem succ64_ne (x : Nat) : succ64 x ≠ x := by
  unfold succ64 uint64Size
  omega

theorem Redrawn.demoted {term : Nat} (leaderID : String)
    (hleft : term ≠ r.currentTerm ∨ r.state ≠ .follower) : Redrawn r (r.demoted term leaderID) where
  reseated := by
    refine decide_eq_true ?_
    rcases hleft with hterm | hstate
    · exact .inl hterm
    · exact .inr ⟨hstate, rfl⟩
  base := rfl
  range := redraw_range _
  elapsed := rfl

theorem becomeLeader_frame (h : r.becomeLeader = some r') :
    r'.state = .leader ∧ r'.currentTerm = r.currentTerm ∧
      r'.baseElectionTimeout = r.baseElectionTimeout ∧ r'.electionTimeout = r.electionTimeout ∧
      r'.electionElapsed = r.electionElapsed := by
  obtain ⟨out, -, rfl⟩ := broadcastHeartbeat_eq h
  exact ⟨rfl, rfl, rfl, rfl, rfl⟩

theorem becomeCandidate_frame (h : r.becomeCandidate = some r') :
    r'.currentTerm = succ64 r.currentTerm ∧ r'.state ≠ .follower ∧
      r'.baseElectionTimeout = r.baseElectionTimeout ∧
      r'.electionTimeout = r.candidacy.electionTimeout ∧ r'.electionElapsed = 0 := by
  rcases becomeCandidate_cases h with ⟨-, hlead⟩ | ⟨-, rfl⟩
  · obtain ⟨hstate, hterm, hbase, htimeout, helapsed⟩ := becomeLeader_frame hlead
    exact ⟨hterm, by simp [hstate], hbase, htimeout, helapsed⟩
  · exact ⟨rfl, nofun, rfl, rfl, rfl⟩

theorem Redrawn.becomeCandidate {r₁ : Raft} (h : r₁.becomeCandidate = some r')
    (hterm : r₁.currentTerm = r.currentTerm)
    (hbase : r₁.baseElectionTimeout = r.baseElectionTimeout) : Redrawn r r' := by
  obtain ⟨hnext, -, hbase', htimeout, helapsed⟩ := becomeCandidate_frame h
  refine ⟨?_, hbase'.trans hbase, ?_, helapsed⟩
  · refine decide_eq_true (.inl ?_)
    rw [hnext, hterm]
    exact succ64_ne _
  · rw [htimeout, ← hbase]
    exact redraw_range _

theorem handleRequestVote_clock (r : Raft) (htype : msg.type = .requestVote) :
    ClockAt r (r.handleRequestVote msg)
      (if granted msg (r.handleRequestVote msg) then 0 else r.electionElapsed) := by
  unfold handleRequestVote
  simp only
  split
  · exact .of_state rfl rfl rfl rfl (by simp [granted, send])
  · split
    next hpre => exact .of_state rfl rfl rfl rfl (by simp [granted, hpre, send])
    next hreal =>
      split
      · exact .of_state rfl rfl rfl rfl (by simp [granted, send])
      · split
        · exact .of_state rfl rfl rfl rfl (by simp [granted, htype, hreal, send])
        · exact .of_state rfl rfl rfl rfl (by simp [granted, send])

theorem handleRequestVoteResp_clock (h : r.handleRequestVoteResp msg = some r') :
    Redrawn r r' ∨ ClockAt r r' r.electionElapsed := by
  rcases handleRequestVoteResp_cases h with rfl |
    ⟨hstate, ⟨-, hpre⟩ | ⟨-, -, votes, -, rfl | hlead⟩⟩
  · exact .inr (.of_state rfl rfl rfl rfl rfl)
  · obtain ⟨tally, preVotes, -, -, ⟨-, hcand⟩ | ⟨-, rfl⟩⟩ := handlePreVoteResp_cases hpre
    · exact .inl (.becomeCandidate hcand rfl rfl)
    · exact .inr (.of_state rfl rfl rfl rfl rfl)
  · exact .inr (.of_state rfl rfl rfl rfl rfl)
  · obtain ⟨hlead', hterm, hbase, htimeout, helapsed⟩ := becomeLeader_frame hlead
    refine .inr ⟨?_, fun _ => hlead', hbase, htimeout, helapsed⟩
    simp [reseated, hlead', hterm]

theorem handleAppendEntriesResp_clock (h : r.handleAppendEntriesResp msg = some r') :
    ClockAt r r' r.electionElapsed := by
  rcases handleAppendEntriesResp_cases h with ⟨rfl, -⟩ | ⟨-, -, -, -, -, -, rfl⟩ |
    ⟨-, -, -, matchIndex, nextIndex, -, rfl⟩
  · exact .of_state rfl rfl rfl rfl rfl
  · exact .of_state rfl rfl rfl rfl rfl
  · rw [maybeAdvanceCommit_frame]
    exact .of_state rfl rfl rfl rfl rfl

theorem Redrawn.kept {r₁ : Raft} {elapsed : Int} (h : Redrawn r r₁)
    (hterm : r₁.currentTerm ≠ r.currentTerm) (hkept : ClockAt r₁ r' elapsed) (hzero : elapsed = 0) :
    Redrawn r r' := by
  have hsame : r'.currentTerm = r₁.currentTerm := by
    have := hkept.seated
    simp only [Raft.reseated, decide_eq_false_iff_not, not_or, not_not] at this
    exact this.1
  refine ⟨decide_eq_true (.inl (hsame ▸ hterm)), hkept.base.trans h.base, ?_,
    hkept.elapsed.trans hzero⟩
  rw [hkept.timeout]
  exact h.range

theorem step_appendEntries_clock (htype : msg.type = .appendEntries) (h : r.step msg = some r') :
    Redrawn r r' ∨ ClockAt r r' (if r.hears msg then 0 else r.electionElapsed) := by
  rcases step_appendEntries_cases htype h with ⟨hstale, rfl⟩ | ⟨hfresh, hreplicate⟩
  · have hdeaf : r.hears msg = false := decide_eq_false fun hno => by omega
    rw [hdeaf]
    exact .inr (.of_state rfl rfl rfl rfl rfl)
  · have hheard : r.hears msg = true := decide_eq_true ⟨htype, hfresh⟩
    rw [hheard]
    obtain ⟨log, commitIndex, msgs, rfl⟩ := replicate_frame hreplicate
    by_cases hlater : r.currentTerm < msg.term
    · have hdrawn : Redrawn r (r.demoted msg.term msg.sender) := .demoted _ (.inl (by omega))
      unfold following heeding
      rw [if_pos hlater]
      exact .inl ⟨hdrawn.reseated, rfl, hdrawn.range, rfl⟩
    · unfold following heeding
      rw [if_neg hlater]
      by_cases hstate : r.state = .follower
      · rw [if_pos hstate]
        exact .inr (.of_state rfl rfl rfl rfl rfl)
      · have hdrawn : Redrawn r (r.demoted msg.term msg.sender) := .demoted _ (.inr hstate)
        rw [if_neg hstate]
        exact .inl ⟨hdrawn.reseated, rfl, hdrawn.range, rfl⟩

theorem step_clock (h : r.step msg = some r') :
    Redrawn r r' ∨
      ClockAt r r' (if r.hears msg || granted msg r' then 0 else r.electionElapsed) := by
  by_cases htype : msg.type = .appendEntries
  · rw [granted_of_type (by simp [htype]), Bool.or_false]
    exact step_appendEntries_clock htype h
  have hdeaf : r.hears msg = false := decide_eq_false fun hno => htype hno.1
  rw [hdeaf, Bool.false_or]
  -- what the handler does, after the term rule has or has not drawn a timeout
  have hhandle : ∀ r₁ : Raft, r₁.handle msg = some r' →
      Redrawn r₁ r' ∧ r₁.state = .candidate ∨
        ClockAt r₁ r' (if granted msg r' then 0 else r₁.electionElapsed) := by
    intro r₁ h
    unfold handle at h
    split at h
    next hvote =>
      cases h
      exact .inr (handleRequestVote_clock r₁ hvote)
    next hresp =>
      rw [granted_of_type (by simp [hresp])]
      rcases handleRequestVoteResp_cases h with rfl | ⟨hstate, -⟩
      · exact .inr (.of_state rfl rfl rfl rfl rfl)
      · rcases handleRequestVoteResp_clock h with hdrawn | hkept
        · exact .inl ⟨hdrawn, hstate⟩
        · exact .inr hkept
    next hno => exact absurd hno htype
    next hresp =>
      rw [granted_of_type (by simp [hresp])]
      exact .inr (handleAppendEntriesResp_clock h)
    next hother =>
      cases h
      rw [granted_of_type (by simp [hother])]
      exact .inr (.of_state rfl rfl rfl rfl rfl)
  obtain ⟨r₁, hr₁, hhandled⟩ := Option.bind_eq_some_iff.mp h
  rcases observeTerm_cases hr₁ with rfl | ⟨hlater, leaderID, rfl⟩
  · exact (hhandle _ hhandled).imp And.left fun hkept => hkept
  · have hdrawn : Redrawn r (r.demoted msg.term leaderID) := .demoted _ (.inl (by omega))
    rcases hhandle _ hhandled with ⟨-, hno⟩ | hkept
    · cases hno
    · refine .inl (hdrawn.kept (by exact (Nat.ne_of_lt hlater).symm) hkept ?_)
      split <;> rfl

theorem tick_clock (h : r.tick = some r') :
    Redrawn r r' ∨
      (r.state ≠ .leader → r.electionElapsed + 1 < r.electionTimeout) ∧
        ClockAt r r' (if r.state = .leader then r.electionElapsed else r.electionElapsed + 1) := by
  rcases tick_cases h with ⟨hlead, h⟩ | ⟨hstate, h⟩
  · obtain ⟨heartbeatElapsed, heartbeatAcked, msgs, rfl⟩ := tickHeartbeat_frame h
    rw [if_pos hlead]
    exact .inr ⟨fun hno => absurd hlead hno, .of_state rfl rfl rfl rfl rfl⟩
  · rw [if_neg hstate]
    rcases tickElection_cases h with ⟨hearly, rfl⟩ | ⟨-, h⟩
    · exact .inr ⟨fun _ => hearly, .of_state rfl rfl rfl rfl rfl⟩
    · exact .inl (.becomeCandidate h rfl rfl)

theorem perform_clock {op : Op} (htick : op ≠ .tick) (hstep : ∀ msg, op ≠ .step msg)
    (h : r.perform op = some r') : ClockAt r r' r.electionElapsed := by
  cases op with
  | tick => exact absurd rfl htick
  | step msg => exact absurd rfl (hstep msg)
  | propose data =>
    obtain ⟨⟨index, r₁⟩, hpropose, rfl⟩ := Option.map_eq_some_iff.mp h
    rcases propose_cases hpropose with ⟨-, rfl⟩ | ⟨-, -, matchIndex, -, hcast⟩
    · exact .of_state rfl rfl rfl rfl rfl
    · obtain ⟨out, -, rfl⟩ := broadcastHeartbeat_eq hcast
      exact .of_state rfl rfl rfl rfl rfl
  | addPeer nodeID =>
    cases h
    rw [(addPeer_frame r nodeID).1]
    exact .of_state rfl rfl rfl rfl rfl
  | messages =>
    cases h
    exact .of_state rfl rfl rfl rfl rfl
  | applicableEntries =>
    cases h
    rw [applicableEntries_eq]
    exact .of_state rfl rfl rfl rfl rfl

theorem becomeCandidate_total (hbase : 0 < r.baseElectionTimeout) :
    ∃ r', r.becomeCandidate = some r' := by
  rw [becomeCandidate_eq, if_pos hbase]
  split
  next hquorum =>
    have hnone : r.candidacy.crowned.peers = [] := by
      by_contra hsome
      rw [candidacy_no_quorum r hsome] at hquorum
      cases hquorum
    refine ⟨_, Option.bind_eq_some_iff.mpr ⟨[], ?_, rfl⟩⟩
    exact (congrArg (List.mapM _) hnone).trans List.mapM_nil
  next => exact ⟨_, rfl⟩

/-- An election was started: the next term, and a vote for oneself in it. -/
def StartsElection (r r' : Raft) : Prop :=
  r'.currentTerm = succ64 r.currentTerm ∧ r'.votedFor = r.id ∧ r'.state ≠ .follower

theorem becomeCandidate_starts {r₁ : Raft} (h : r₁.becomeCandidate = some r')
    (hterm : r₁.currentTerm = r.currentTerm) (hid : r₁.id = r.id) : StartsElection r r' := by
  obtain ⟨hnext, hoffice, -⟩ := becomeCandidate_frame h
  refine ⟨hterm ▸ hnext, ?_, hoffice⟩
  rcases becomeCandidate_cases h with ⟨-, hlead⟩ | ⟨-, rfl⟩
  · obtain ⟨out, -, rfl⟩ := broadcastHeartbeat_eq hlead
    exact hid
  · exact hid

theorem tick_of_not_leader (hstate : r.state ≠ .leader) : r.tick = r.tickElection := by
  unfold tick
  cases hrole : r.state with
  | leader => exact absurd hrole hstate
  | _ => rfl

theorem tick_starts (hbase : 0 < r.baseElectionTimeout) (hstate : r.state ≠ .leader) :
    ∃ r', r.tick = some r' ∧
      (StartsElection r r' ↔ r.electionTimeout ≤ r.electionElapsed + 1) := by
  rw [tick_of_not_leader hstate, tickElection]
  simp only
  split
  next hdue =>
    obtain ⟨r', hr'⟩ := becomeCandidate_total
      (r := { r with electionElapsed := 0, leaderActive := false }) hbase
    exact ⟨r', hr', iff_of_true (becomeCandidate_starts hr' rfl rfl) hdue⟩
  next hearly => exact ⟨_, rfl, iff_of_false (fun hno => succ64_ne _ hno.1.symm) hearly⟩

end Raft

/-- An instance, the ticks since its election clock was due to start again, and the timeout
that was drawn last. -/
structure Stopwatch where
  raft : Raft
  ticks : Nat := 0
  drawn : Int

namespace Stopwatch

def restarts (r r' : Raft) : Op → Bool
  | .step msg => r.reseated r' || r.hears msg || Raft.granted msg r'
  | _ => r.reseated r'

def perform (s : Stopwatch) (op : Op) : Option Stopwatch :=
  (s.raft.perform op).map fun raft =>
    { raft
      ticks := if restarts s.raft raft op then 0 else if op = .tick then s.ticks + 1 else s.ticks
      drawn := if s.raft.reseated raft then raft.electionTimeout else s.drawn }

def start (newSource : Int → Nat → Nat) (cfg : Config) : Option Stopwatch :=
  (Raft.newRaft newSource cfg).map fun raft => { raft, drawn := raft.electionTimeout }

abbrev Run (newSource : Int → Nat → Nat) (cfg : Config) : Stopwatch → Prop :=
  Reachable (start newSource cfg) perform fun _ _ => True

/-- What is asked of the clock: a timeout from the configured range, and an election with the
tick that completes it and with no other. -/
def OnTime (configured : Int) (s : Stopwatch) : Prop :=
  configured ≤ s.drawn ∧ s.drawn < 2 * configured ∧
    (s.raft.state ≠ .leader → ∃ r', s.raft.tick = some r' ∧
      (Raft.StartsElection s.raft r' ↔ (s.ticks + 1 : Int) = s.drawn))

/-- The code's own clock agrees with the stopwatch, except for a leader. -/
structure Agrees (configured : Int) (s : Stopwatch) : Prop where
  pos : 0 < configured
  fits : configured ≤ maxElectionTimeout
  base : s.raft.baseElectionTimeout = configured
  timeout : s.raft.electionTimeout = s.drawn
  least : configured ≤ s.drawn
  most : s.drawn < 2 * configured
  elapsed : s.raft.state ≠ .leader → s.raft.electionElapsed = s.ticks ∧ (s.ticks : Int) < s.drawn

variable {configured : Int} {s s' : Stopwatch}

theorem Agrees.redrawn (h : s.Agrees configured) (hdrawn : s.raft.Redrawn s'.raft)
    (hticks : s'.ticks = 0) (htimeout : s'.drawn = s'.raft.electionTimeout) :
    s'.Agrees configured := by
  have hrange := hdrawn.range (h.base.symm ▸ h.pos) (h.base.symm ▸ h.fits)
  rw [h.base, ← htimeout] at hrange
  refine ⟨h.pos, h.fits, hdrawn.base.trans h.base, htimeout.symm, hrange.1, hrange.2, fun _ => ?_⟩
  rw [hdrawn.elapsed, hticks]
  exact ⟨rfl, Int.lt_of_lt_of_le h.pos hrange.1⟩

theorem Agrees.kept {elapsed : Int} (h : s.Agrees configured)
    (hkept : s.raft.ClockAt s'.raft elapsed) (hdrawn : s'.drawn = s.drawn)
    (helapsed : s'.raft.state ≠ .leader → elapsed = s'.ticks ∧ (s'.ticks : Int) < s.drawn) :
    s'.Agrees configured where
  pos := h.pos
  fits := h.fits
  base := hkept.base.trans h.base
  timeout := by rw [hkept.timeout, h.timeout, hdrawn]
  least := hdrawn.symm ▸ h.least
  most := hdrawn.symm ▸ h.most
  elapsed := by
    rw [hkept.elapsed, hdrawn]
    exact helapsed

theorem step_agrees {msg : Message} (h : s.Agrees configured)
    (hstep : s.perform (.step msg) = some s') : s'.Agrees configured := by
  obtain ⟨raft, hraft, rfl⟩ := Option.map_eq_some_iff.mp hstep
  rcases Raft.step_clock hraft with hdrawn | hkept
  · refine h.redrawn hdrawn ?_ ?_
    · simp [restarts, hdrawn.reseated]
    · simp [hdrawn.reseated]
  · refine h.kept hkept ?_ fun hstate => ?_
    · simp [hkept.seated]
    · obtain ⟨helapsed, hearly⟩ := h.elapsed fun hlead => hstate (hkept.leads hlead)
      have hleast := h.least
      have hpos := h.pos
      simp only [restarts, hkept.seated, Bool.false_or, reduceCtorEq, if_false]
      split
      · exact ⟨rfl, by omega⟩
      · exact ⟨helapsed, hearly⟩

theorem tick_agrees (h : s.Agrees configured) (htick : s.perform .tick = some s') :
    s'.Agrees configured := by
  obtain ⟨raft, hraft, rfl⟩ := Option.map_eq_some_iff.mp htick
  rcases Raft.tick_clock hraft with hdrawn | ⟨hearly, hkept⟩
  · refine h.redrawn hdrawn ?_ ?_
    · simp [restarts, hdrawn.reseated]
    · simp [hdrawn.reseated]
  · refine h.kept hkept ?_ fun hstate => ?_
    · simp [hkept.seated]
    · have hoffice : s.raft.state ≠ .leader := fun hlead => hstate (hkept.leads hlead)
      have hnext := hearly hoffice
      rw [(h.elapsed hoffice).1, h.timeout] at hnext
      simp only [restarts, hkept.seated, Bool.false_eq_true, if_false, if_neg hoffice, if_true]
      rw [(h.elapsed hoffice).1]
      exact ⟨rfl, hnext⟩

theorem perform_agrees {op : Op} (h : s.Agrees configured) (hperform : s.perform op = some s') :
    s'.Agrees configured := by
  by_cases htick : op = .tick
  · exact tick_agrees h (htick ▸ hperform)
  by_cases hstep : ∃ msg, op = .step msg
  · obtain ⟨msg, rfl⟩ := hstep
    exact step_agrees h hperform
  obtain ⟨raft, hraft, rfl⟩ := Option.map_eq_some_iff.mp hperform
  have hkept := Raft.perform_clock htick (fun msg hmsg => hstep ⟨msg, hmsg⟩) hraft
  have hrestarts : restarts s.raft raft op = false := by
    cases op with
    | step msg => exact absurd ⟨msg, rfl⟩ hstep
    | _ => exact hkept.seated
  refine h.kept hkept (by simp [hkept.seated]) fun hstate => ?_
  simp only [hrestarts, Bool.false_eq_true, if_false, if_neg htick]
  exact h.elapsed fun hlead => hstate (hkept.leads hlead)

theorem Run.agrees {newSource : Int → Nat → Nat} {cfg : Config} (hrun : Run newSource cfg s)
    (hfits : cfg.electionTimeout ≤ maxElectionTimeout) : s.Agrees cfg.electionTimeout := by
  induction hrun with
  | start h =>
    obtain ⟨raft, hnew, rfl⟩ := Option.map_eq_some_iff.mp h
    obtain ⟨rand, hpos, rfl⟩ := Raft.newRaft_eq hnew
    obtain ⟨hleast, hmost⟩ := Raft.redraw_range
      { id := cfg.id, currentTerm := cfg.initialTerm, votedFor := cfg.initialVotedFor
        log := cfg.initialLog, heartbeatTimeout := cfg.heartbeatTimeout
        baseElectionTimeout := cfg.electionTimeout, peers := cfg.peers, rand } hpos hfits
    refine ⟨hpos, hfits, rfl, rfl, hleast, hmost, fun _ => ⟨rfl, ?_⟩⟩
    exact Int.lt_of_lt_of_le hpos hleast
  | step _ _ hperform ih => exact perform_agrees ih hperform

theorem Agrees.onTime (h : s.Agrees configured) : s.OnTime configured := by
  refine ⟨h.least, h.most, fun hstate => ?_⟩
  obtain ⟨helapsed, hearly⟩ := h.elapsed hstate
  obtain ⟨r', htick, hstarts⟩ := Raft.tick_starts (h.base.symm ▸ h.pos) hstate
  refine ⟨r', htick, hstarts.trans ?_⟩
  rw [helapsed, h.timeout]
  omega

/-- Past `maxElectionTimeout` there is a draw with which the sum of `resetElectionTimeout`
overflows. -/
theorem exists_overdrawn (hlarge : maxElectionTimeout < configured) (hint : configured ≤ maxInt) :
    ∃ newSource cfg s, cfg.electionTimeout = configured ∧ Run newSource cfg s ∧ s.drawn < 0 := by
  have hpos : 0 < configured := Int.lt_trans (by decide) hlarge
  let cfg : Config :=
    { id := "a", peers := [], electionTimeout := configured, heartbeatTimeout := 1 }
  let draws : Int → Nat → Nat := fun _ _ => (configured - 1).toNat
  obtain ⟨raft, hnew⟩ : ∃ raft, Raft.newRaft draws cfg = some raft := by
    unfold Raft.newRaft Raft.resetElectionTimeout
    exact ⟨_, if_pos hpos⟩
  refine ⟨draws, cfg, { raft, drawn := raft.electionTimeout }, rfl, .start ?_, ?_⟩
  · rw [start, hnew]
    rfl
  · have hdraw : ((configured - 1).toNat : Int) % configured = configured - 1 := by
      rw [Int.toNat_of_nonneg (by omega)]
      exact Int.emod_eq_of_lt (by omega) (by omega)
    have htimeout : raft.electionTimeout = wrapInt (configured + (configured - 1)) := by
      rw [← hdraw]
      unfold Raft.newRaft Raft.resetElectionTimeout at hnew
      cases (if_pos hpos).symm.trans hnew
      rfl
    change raft.electionTimeout < 0
    rw [htimeout]
    apply wrapInt_neg
    · unfold maxElectionTimeout at hlarge
      unfold maxInt
      omega
    · omega

end Stopwatch

/-- Every run with a configured timeout is on time exactly when no sum that
`resetElectionTimeout` can form with it overflows. -/
theorem elections_on_time {configured : Int} (hpos : 1 ≤ configured) (hint : configured ≤ maxInt) :
    (∀ newSource cfg s, cfg.electionTimeout = configured → Stopwatch.Run newSource cfg s →
      s.OnTime configured) ↔ configured ≤ maxElectionTimeout := by
  constructor
  · intro h
    by_contra hlarge
    obtain ⟨newSource, cfg, s, hconfigured, hrun, hneg⟩ :=
      Stopwatch.exists_overdrawn (not_le.mp hlarge) hint
    have hleast := (h newSource cfg s hconfigured hrun).1
    omega
  · rintro hfits newSource cfg s rfl hrun
    exact (hrun.agrees hfits).onTime

/-- A follower that grants a vote after two ticks waits three more for its own election. -/
theorem elections_on_time_after_grant :
    ∃ s r', Stopwatch.Run (fun _ _ => 0)
        { id := "a", peers := ["b", "c"], electionTimeout := 3, heartbeatTimeout := 1 } s ∧
      s.ticks = 2 ∧ s.raft.votedFor = "b" ∧ s.raft.tick = some r' ∧
      Raft.StartsElection s.raft r' := by
  obtain ⟨s, hrun, hstate, hticks, hdrawn, hvote⟩ : ∃ s, Stopwatch.Run (fun _ _ => 0)
      { id := "a", peers := ["b", "c"], electionTimeout := 3, heartbeatTimeout := 1 } s ∧
      s.raft.state ≠ .leader ∧ s.ticks = 2 ∧ s.drawn = 3 ∧ s.raft.votedFor = "b" :=
    Reachable.of_any [.tick, .tick,
      .step { type := .requestVote, sender := "b", recipient := "a", term := 0 }, .tick, .tick] rfl
  obtain ⟨-, -, htick⟩ := (elections_on_time (by decide) (by decide)).mpr (by decide) _ _ s rfl hrun
  obtain ⟨r', hr', hstarts⟩ := htick hstate
  refine ⟨s, r', hrun, hticks, hvote, hr', hstarts.mpr ?_⟩
  rw [hticks, hdrawn]
  rfl

/-- With the largest `int` as timeout and a draw of 1 the sum is the least `int`, and the very
first tick starts an election. -/
theorem huge_timeout_elects_at_once :
    ∃ s r', Stopwatch.Run (fun _ _ => 1)
        { id := "a", peers := ["b", "c"], electionTimeout := maxInt, heartbeatTimeout := 1 } s ∧
      s.ticks = 0 ∧ s.drawn = -maxInt - 1 ∧ s.raft.state = .follower ∧
      s.raft.tick = some r' ∧ Raft.StartsElection s.raft r' ∧ ¬ s.OnTime maxInt := by
  obtain ⟨s, hrun, hticks, hdrawn, hfollower, hbase, hdue⟩ : ∃ s, Stopwatch.Run (fun _ _ => 1)
      { id := "a", peers := ["b", "c"], electionTimeout := maxInt, heartbeatTimeout := 1 } s ∧
      s.ticks = 0 ∧ s.drawn = -maxInt - 1 ∧ s.raft.state = .follower ∧
      0 < s.raft.baseElectionTimeout ∧ s.raft.electionTimeout ≤ s.raft.electionElapsed + 1 :=
    Reachable.of_any [] rfl
  obtain ⟨r', htick, hstarts⟩ := Raft.tick_starts hbase (by simp [hfollower])
  refine ⟨s, r', hrun, hticks, hdrawn, hfollower, htick, hstarts.mpr hdue, fun hno => ?_⟩
  have hleast := hno.1
  rw [hdrawn] at hleast
  exact absurd hleast (by decide)

end Phalanx
