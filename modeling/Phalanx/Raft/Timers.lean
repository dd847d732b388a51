import Phalanx.Raft.Moves

/-! The clocks of an instance. A follower that hears from the leader of its term
stays put until its own election clock runs out, and a leader counts replies from
one heartbeat to the next. -/
namespace Phalanx

open Go

namespace Raft

variable {inbox : Message → Prop} {clock : Nat → Prop} {r r' : Raft} {msg m : Message}

theorem redraw_range (r : Raft) (hpos : 0 < r.baseElectionTimeout)
    (hfits : r.baseElectionTimeout ≤ maxElectionTimeout) :
    r.baseElectionTimeout ≤ r.redraw.electionTimeout ∧
      r.redraw.electionTimeout < 2 * r.baseElectionTimeout := by
  have hnonneg := Int.emod_nonneg (r.rand 0 : Int) (Int.ne_of_gt hpos)
  have hlt := Int.emod_lt_of_pos (r.rand 0 : Int) hpos
  have hexact : r.redraw.electionTimeout =
      r.baseElectionTimeout + (r.rand 0 : Int) % r.baseElectionTimeout := by
    apply wrapInt_of_le
    · omega
    · unfold maxElectionTimeout at hfits
      unfold maxInt
      omega
  rw [hexact]
  omega

theorem Move.timeouts (hmove : Move inbox clock r r') :
    r'.baseElectionTimeout = r.baseElectionTimeout ∧ r'.heartbeatTimeout = r.heartbeatTimeout ∧
      (r'.electionTimeout = r.electionTimeout ∨
        (0 < r.baseElectionTimeout → r.baseElectionTimeout ≤ maxElectionTimeout →
          r.baseElectionTimeout ≤ r'.electionTimeout)) := by
  have hdraw : ∀ r : Raft, 0 < r.baseElectionTimeout →
      r.baseElectionTimeout ≤ maxElectionTimeout →
      r.baseElectionTimeout ≤ r.redraw.electionTimeout :=
    fun r hpos hfits => (redraw_range r hpos hfits).1
  cases hmove with
  | stand => exact ⟨rfl, rfl, .inr (hdraw _)⟩
  | broadcast _ _ hout =>
    obtain ⟨out, -, rfl⟩ := broadcastHeartbeat_eq hout
    exact ⟨rfl, rfl, .inl rfl⟩
  | observe => exact ⟨rfl, rfl, .inr (hdraw _)⟩
  | heed msg =>
    unfold heeding
    split
    · exact ⟨rfl, rfl, .inl rfl⟩
    · exact ⟨rfl, rfl, .inr (hdraw _)⟩
  | accept msg log =>
    rw [accepting_eq]
    exact ⟨rfl, rfl, .inl rfl⟩
  | _ => exact ⟨rfl, rfl, .inl rfl⟩

theorem Moves.timeouts (hmoves : Moves inbox clock r r') :
    r'.baseElectionTimeout = r.baseElectionTimeout ∧ r'.heartbeatTimeout = r.heartbeatTimeout ∧
      (0 < r.baseElectionTimeout → r.baseElectionTimeout ≤ maxElectionTimeout →
        r.baseElectionTimeout ≤ r.electionTimeout →
        r.baseElectionTimeout ≤ r'.electionTimeout) := by
  induction hmoves with
  | refl => exact ⟨rfl, rfl, fun _ _ h => h⟩
  | tail _ hmove ih =>
    obtain ⟨hbase, hheartbeat, htimeout⟩ := ih
    obtain ⟨hbase', hheartbeat', hsame | hdrawn⟩ := hmove.timeouts
    · exact ⟨hbase'.trans hbase, hheartbeat'.trans hheartbeat, hsame ▸ htimeout⟩
    · refine ⟨hbase'.trans hbase, hheartbeat'.trans hheartbeat, fun hpos hfits _ => ?_⟩
      rw [hbase] at hdrawn
      exact hdrawn hpos hfits

/-- A follower of the leader of `term` whose election clock has not passed `bound`. -/
structure Sticky (term : Nat) (bound : Int) (r : Raft) : Prop where
  follower : r.state = .follower
  term : r.currentTerm = term
  active : r.leaderActive = true
  elapsed : r.electionElapsed ≤ bound

theorem Move.sticky {term : Nat} {bound : Int} (hclock : ∀ t, ¬ clock t)
    (hinbox : ∀ m, inbox m → m.term ≤ term) (hbound : 0 ≤ bound) (h : Sticky term bound r)
    (hmove : Move inbox clock r r') : Sticky term bound r' := by
  have hfollower := h.follower
  have hterm := h.term
  cases hmove with
  | wait _ hticks => exact absurd hticks (hclock _)
  | stand _ hticks => exact absurd hticks (hclock _)
  | canvass hstate => simp [hfollower] at hstate
  | win hstate => simp [hfollower] at hstate
  | beat _ _ hstate => simp [hfollower] at hstate
  | count _ _ _ hstate => simp [hfollower] at hstate
  | broadcast _ hstate => simp [hfollower] at hstate
  | observe msg hin hlater =>
    have := hinbox msg hin
    omega
  | refuse => exact { h with }
  | grant msg hin htype _ hidle =>
    rw [h.active] at hidle
    cases hidle
  | tally _ _ _ _ hstate => simp [hfollower] at hstate
  | heed msg =>
    unfold heeding
    rw [if_pos hfollower]
    exact ⟨hfollower, hterm, rfl, hbound⟩
  | accept msg log =>
    rw [accepting_eq]
    exact { h with }
  | aim _ _ _ hstate => simp [hfollower] at hstate
  | matched _ _ _ _ hstate => simp [hfollower] at hstate
  | advance _ _ _ _ hstate => simp [hfollower] at hstate
  | extend _ _ hstate => simp [hfollower] at hstate

theorem Moves.sticky {term : Nat} {bound : Int} (hclock : ∀ t, ¬ clock t)
    (hinbox : ∀ m, inbox m → m.term ≤ term) (hbound : 0 ≤ bound) (h : Sticky term bound r)
    (hmoves : Moves inbox clock r r') : Sticky term bound r' := by
  induction hmoves with
  | refl => exact h
  | tail _ hmove ih => exact hmove.sticky hclock hinbox hbound ih

theorem tick_sticky {term : Nat} {bound : Int} (h : Sticky term bound r)
    (hearly : bound + 1 < r.electionTimeout) (htick : r.tick = some r') :
    Sticky term (bound + 1) r' := by
  have helapsed := h.elapsed
  rcases tick_cases htick with ⟨hlead, -⟩ | ⟨-, htick⟩
  · rw [h.follower] at hlead
    cases hlead
  · rcases tickElection_cases htick with ⟨-, rfl⟩ | ⟨hdue, -⟩
    · exact ⟨h.follower, h.term, h.active, by change r.electionElapsed + 1 ≤ bound + 1; omega⟩
    · omega

theorem replicate_accepts {reply : Message} (h : r.replicate reply msg = some r')
    (hempty : r.msgs = []) (hreply : reply.reject = true) (hm : m ∈ r'.msgs)
    (hreject : m.reject = false) :
    m.term = reply.term ∧ ∀ term bound, Sticky term bound r → Sticky term bound r' := by
  unfold replicate send at h
  split at h
  · cases h
    rw [hempty] at hm
    rw [List.mem_singleton.mp hm] at hreject
    exact absurd hreject (by simp [hreply])
  · split at h
    · cases h
      rw [hempty] at hm
      rw [List.mem_singleton.mp hm] at hreject
      exact absurd hreject (by simp [hreply])
    · obtain ⟨log, -, h⟩ := Option.bind_eq_some_iff.mp h
      rw [followCommit_eq] at h
      cases h
      rw [hempty] at hm
      rw [List.mem_singleton.mp hm]
      exact ⟨rfl, fun _ _ hsticky => { hsticky with }⟩

theorem step_accepts (htype : msg.type = .appendEntries) (hsender : msg.sender ≠ None)
    (hempty : r.msgs = []) (h : r.step msg = some r') (hm : m ∈ r'.msgs)
    (hreject : m.reject = false) : m.term = msg.term ∧ Sticky msg.term 0 r' := by
  unfold step at h
  obtain ⟨r₁, hr₁, h⟩ := Option.bind_eq_some_iff.mp h
  have hobserve : r₁.msgs = [] ∧ msg.term ≤ r₁.currentTerm := by
    unfold observeTerm at hr₁
    simp only [htype, reduceCtorEq, or_self, and_false, not_false_eq_true, and_true] at hr₁
    split at hr₁
    · rw [becomeFollower_eq_some hr₁]
      exact ⟨hempty, le_rfl⟩
    · cases hr₁
      exact ⟨hempty, by omega⟩
  simp only [handle, htype, handleAppendEntries] at h
  split at h
  · cases h
    unfold send at hm
    rw [hobserve.1] at hm
    rw [List.mem_singleton.mp hm] at hreject
    cases hreject
  next hfresh =>
    have hterm : r₁.currentTerm = msg.term := by omega
    split at h
    · obtain ⟨r₂, hr₂, h⟩ := Option.bind_eq_some_iff.mp h
      cases becomeFollower_eq_some hr₂
      obtain ⟨hsame, hsticky⟩ := replicate_accepts h hobserve.1 rfl hm hreject
      exact ⟨hsame, hsticky _ _ ⟨rfl, rfl, decide_eq_true hsender, le_rfl⟩⟩
    next hstate =>
      rw [Option.bind_eq_bind, Option.bind_some] at h
      obtain ⟨hsame, hsticky⟩ := replicate_accepts h hobserve.1 rfl hm hreject
      exact ⟨hsame.trans hterm, hsticky _ _ ⟨not_not.mp hstate, hterm, rfl, le_rfl⟩⟩

/-- The replies a leader has counted since its last heartbeat, or would start from. -/
structure Paced (elapsed acked : Int) (r : Raft) : Prop where
  candidate : r.state = .candidate → elapsed = 0 ∧ acked = 1
  leader : r.state = .leader → r.heartbeatElapsed = elapsed ∧ r.heartbeatAcked = acked

theorem Move.paced {elapsed acked : Int} (hclock : ∀ t, ¬ clock t)
    (hinbox : ∀ m, inbox m → m.type ≠ .appendEntriesResp) (h : Paced elapsed acked r)
    (hmove : Move inbox clock r r') : Paced elapsed acked r' := by
  cases hmove with
  | wait _ hticks => exact absurd hticks (hclock _)
  | stand _ hticks => exact absurd hticks (hclock _)
  | win hstate =>
    obtain ⟨rfl, rfl⟩ := h.candidate hstate
    exact ⟨fun _ => ⟨rfl, rfl⟩, fun _ => ⟨rfl, rfl⟩⟩
  | beat _ _ _ hticks => exact absurd hticks (hclock _)
  | count msg hin htype => exact absurd htype (hinbox msg hin)
  | broadcast _ _ hout =>
    obtain ⟨out, -, rfl⟩ := broadcastHeartbeat_eq hout
    exact ⟨h.candidate, h.leader⟩
  | observe => exact ⟨fun hno => (by cases hno), fun hno => (by cases hno)⟩
  | heed msg =>
    have hstate := heeding_state r msg
    exact ⟨fun hno => (by rw [hstate] at hno; cases hno),
      fun hno => (by rw [hstate] at hno; cases hno)⟩
  | accept msg log =>
    rw [accepting_eq]
    exact ⟨h.candidate, h.leader⟩
  | _ => exact ⟨h.candidate, h.leader⟩

theorem Moves.paced {elapsed acked : Int} (hclock : ∀ t, ¬ clock t)
    (hinbox : ∀ m, inbox m → m.type ≠ .appendEntriesResp) (h : Paced elapsed acked r)
    (hmoves : Moves inbox clock r r') : Paced elapsed acked r' := by
  induction hmoves with
  | refl => exact h
  | tail _ hmove ih => exact hmove.paced hclock hinbox ih

def counts (r : Raft) (msg : Message) : Bool :=
  r.state = .leader ∧ msg.type = .appendEntriesResp ∧ msg.term = r.currentTerm ∧
    msg.reject = false

theorem step_paced (htype : msg.type = .appendEntriesResp) (hlead : r.state = .leader)
    (h : r.step msg = some r') (hlead' : r'.state = .leader) :
    r'.heartbeatElapsed = r.heartbeatElapsed ∧
      r'.heartbeatAcked = r.heartbeatAcked + if r.counts msg then 1 else 0 := by
  unfold step at h
  obtain ⟨r₁, hr₁, hresp⟩ := Option.bind_eq_some_iff.mp h
  simp only [handle, htype] at hresp
  have hsame : r₁ = r := by
    unfold observeTerm at hr₁
    split at hr₁
    · exfalso
      have hfollower : r₁.state = .follower := by
        rw [becomeFollower_eq_some hr₁]
        rfl
      rcases handleAppendEntriesResp_cases hresp with ⟨rfl, -⟩ | ⟨-, -, hno, -⟩ | ⟨hno, -⟩
      · rw [hfollower] at hlead'
        cases hlead'
      · rw [hfollower] at hno
        cases hno
      · rw [hfollower] at hno
        cases hno
    · cases hr₁
      rfl
  subst hsame
  unfold counts
  rcases handleAppendEntriesResp_cases hresp with ⟨rfl, hno⟩ | ⟨-, -, -, hreject, -, -, rfl⟩ |
    ⟨-, hterm, hreject, matchIndex, nextIndex, -, rfl⟩
  · rw [decide_eq_false (fun hyes => hno ⟨hyes.1, hyes.2.2⟩)]
    simp
  · simp [hreject]
  · rw [maybeAdvanceCommit_frame, decide_eq_true ⟨hlead, htype, hterm, hreject⟩]
    exact ⟨rfl, rfl⟩

theorem step_leads (htype : msg.type = .appendEntriesResp) (h : r.step msg = some r')
    (hlead : r'.state = .leader) : r.state = .leader := by
  unfold step at h
  obtain ⟨r₁, hr₁, hresp⟩ := Option.bind_eq_some_iff.mp h
  simp only [handle, htype] at hresp
  have hlead₁ : r₁.state = .leader := by
    rcases handleAppendEntriesResp_cases hresp with ⟨rfl, -⟩ | ⟨-, -, hlead₁, -⟩ | ⟨hlead₁, -⟩
    · exact hlead
    · exact hlead₁
    · exact hlead₁
  unfold observeTerm at hr₁
  split at hr₁
  · rw [becomeFollower_eq_some hr₁] at hlead₁
    cases hlead₁
  · cases hr₁
    exact hlead₁

theorem tick_paced (hlead : r.state = .leader) (h : r.tick = some r') :
    r'.state = .leader ∧ r'.currentTerm = r.currentTerm ∧
      (r.heartbeatTimeout ≤ r.heartbeatElapsed + 1 ∧ r'.heartbeatElapsed = 0 ∧
        r'.heartbeatAcked = 1 ∨
      r.heartbeatElapsed + 1 < r.heartbeatTimeout ∧
        r'.heartbeatElapsed = r.heartbeatElapsed + 1 ∧ r'.heartbeatAcked = r.heartbeatAcked) := by
  rcases tick_cases h with ⟨-, h⟩ | ⟨hno, -⟩
  · unfold tickHeartbeat at h
    simp only at h
    split at h
    next hdue =>
      obtain ⟨out, -, rfl⟩ := broadcastHeartbeat_eq h
      exact ⟨hlead, rfl, .inl ⟨hdue, rfl, rfl⟩⟩
    next hearly =>
      cases h
      exact ⟨hlead, rfl, .inr ⟨by omega, rfl, rfl⟩⟩
  · exact absurd hlead hno

theorem tick_crowned (hno : r.state ≠ .leader) (h : r.tick = some r')
    (hlead : r'.state = .leader) :
    r'.heartbeatElapsed = 0 ∧ r'.heartbeatAcked = 1 ∧ r'.currentTerm = succ64 r.currentTerm := by
  rcases tick_cases h with ⟨hyes, -⟩ | ⟨-, h⟩
  · exact absurd hyes hno
  · rcases tickElection_cases h with ⟨-, rfl⟩ | ⟨-, h⟩
    · exact absurd hlead hno
    · rcases becomeCandidate_cases h with ⟨-, h⟩ | ⟨-, rfl⟩
      · obtain ⟨out, -, rfl⟩ := broadcastHeartbeat_eq h
        exact ⟨rfl, rfl, rfl⟩
      · cases hlead

end Raft
end Phalanx
