import Phalanx.Raft.Terms

/-! The grants behind an election that pre-votes started. The tally of pre-votes is made
by the first response and never emptied, so a grant that was counted before an election
counts again after it, and a rejection is enough to start the next one. -/
namespace Phalanx

open Go

def Op.granter : Op → Finset String
  | .step msg =>
    if msg.type = .requestVoteResp ∧ msg.isPreVote = true ∧ msg.reject = false then {msg.sender}
    else ∅
  | _ => ∅

instance (r r' : Raft) : Decidable (r.StartsElection r') := inferInstanceAs (Decidable (_ ∧ _))

/-- An instance, who has granted it a pre-vote since it last entered `becomeCandidate`, and
whether nobody else's grant was in the tally when it did. -/
structure Canvass where
  raft : Raft
  granters : Finset String := ∅
  clean : Bool := true

namespace Canvass

def perform (s : Canvass) (op : Op) : Option Canvass :=
  (s.raft.perform op).map fun raft =>
    if s.raft.StartsElection raft then { raft, clean := raft.preVotes.trueKeys ⊆ {raft.id} }
    else { raft, granters := s.granters ∪ op.granter, clean := s.clean }

def start (newSource : Int → Nat → Nat) (cfg : Config) : Option Canvass :=
  (Raft.newRaft newSource cfg).map fun raft => { raft }

abbrev Run (newSource : Int → Nat → Nat) (cfg : Config) : Canvass → Prop :=
  Reachable (start newSource cfg) perform fun _ _ => True

/-- The tally of a clean canvass holds fresh grants only, and too few to win. -/
structure Backed (s : Canvass) : Prop where
  contested : s.raft.state = .candidate → 2 ≤ s.raft.quorumSize
  fresh : s.clean = true → ∀ q ∈ s.raft.preVotes.trueKeys, q = s.raft.id ∨ q ∈ s.granters
  few : s.clean = true → s.raft.state = .candidate →
    s.raft.preVotes.trueKeys.card < s.raft.quorumSize

end Canvass

namespace Raft

variable {r r' : Raft} {msg : Message} {inbox : Message → Prop} {clock : Nat → Prop}

structure Aside (r r' : Raft) : Prop where
  id : r'.id = r.id
  preVotes : r'.preVotes = r.preVotes
  quorum : r.quorumSize ≤ r'.quorumSize
  candidate : r'.state = .candidate → r.state = .candidate
  starts : ¬ StartsElection r r'

theorem Aside.of_term (hid : r'.id = r.id) (hpre : r'.preVotes = r.preVotes)
    (hpeers : r'.peers = r.peers) (hstate : r'.state = .candidate → r.state = .candidate)
    (hterm : r'.currentTerm = r.currentTerm) : Aside r r' where
  id := hid
  preVotes := hpre
  quorum := by simp [quorumSize, clusterSize, hpeers]
  candidate := hstate
  starts := fun hno => succ64_ne _ (hno.1.symm.trans hterm)

theorem Move.candidate_before (hclock : ∀ t, ¬ clock t) (hmove : Move inbox clock r r')
    (hstate : r'.state = .candidate) : r.state = .candidate := by
  cases hmove with
  | stand _ hticks => exact absurd hticks (hclock _)
  | win => cases hstate
  | broadcast _ _ h =>
    obtain ⟨out, -, rfl⟩ := broadcastHeartbeat_eq h
    exact hstate
  | observe => cases hstate
  | heed msg =>
    rw [heeding_state] at hstate
    cases hstate
  | accept msg log =>
    rw [accepting_eq] at hstate
    exact hstate
  | _ => exact hstate

theorem Moves.candidate_before (hclock : ∀ t, ¬ clock t) (hmoves : Moves inbox clock r r')
    (hstate : r'.state = .candidate) : r.state = .candidate := by
  induction hmoves with
  | refl => exact hstate
  | tail _ hmove ih => exact ih (hmove.candidate_before hclock hstate)

theorem Aside.of_moves (hclock : ∀ t, ¬ clock t) (hmoves : Moves inbox clock r r') :
    Aside r r' where
  id := hmoves.same.id
  preVotes := hmoves.same.preVotes
  quorum := by simp [quorumSize, clusterSize, hmoves.same.peers]
  candidate := hmoves.candidate_before hclock
  starts := by
    intro hno
    exact succ64_ne _ (hno.1.symm.trans (hmoves.keeps_office hclock hno.2.2).2)

theorem step_aside (h : r.step msg = some r') :
    Aside r r' ∨ msg.type = .requestVoteResp ∧ msg.isPreVote = true ∧ r.state = .candidate ∧
      r.handlePreVoteResp msg = some r' := by
  rcases step_cases h with ⟨-, hreal⟩ | ⟨-, -, -, reject, rfl⟩ |
    ⟨hpre, htype, rfl | ⟨hstate, hresp⟩⟩
  · have hmoves : Moves (fun _ => True) (fun _ => False) r r' := step_moves trivial rfl hreal
    exact .inl (.of_moves (fun _ hno => hno) hmoves)
  · exact .inl (.of_term rfl rfl rfl (fun hstate => hstate) rfl)
  · exact .inl (.of_term rfl rfl rfl (fun hstate => hstate) rfl)
  · exact .inr ⟨htype, hpre, hstate, hresp⟩

theorem perform_aside {op : Op} (htick : op ≠ .tick) (hstep : ∀ msg, op ≠ .step msg)
    (h : r.perform op = some r') : Aside r r' := by
  cases op with
  | tick => exact absurd rfl htick
  | step msg => exact absurd rfl (hstep msg)
  | propose data =>
    obtain ⟨⟨index, r₁⟩, hpropose, rfl⟩ := Option.map_eq_some_iff.mp h
    have hmoves : Moves (fun _ => False) (fun _ => False) r r₁ := propose_moves hpropose
    exact .of_moves (fun _ hno => hno) hmoves
  | addPeer nodeID =>
    cases h
    have hframe := (addPeer_frame r nodeID).1
    refine ⟨by rw [hframe], by rw [hframe], ?_, by rw [hframe]; exact fun hstate => hstate, ?_⟩
    · unfold addPeer quorumSize clusterSize
      split
      · exact le_rfl
      · split
        · exact le_rfl
        · simp only [List.length_append, List.length_singleton]
          omega
    · intro hno
      have hterm : (r.addPeer nodeID).currentTerm = r.currentTerm := by rw [hframe]
      exact succ64_ne _ (hno.1.symm.trans hterm)
  | messages =>
    cases h
    exact .of_term rfl rfl rfl (fun hstate => hstate) rfl
  | applicableEntries =>
    cases h
    rw [applicableEntries_eq]
    exact .of_term rfl rfl rfl (fun hstate => hstate) rfl

theorem tick_aside (h : r.tick = some r') :
    Aside r r' ∨
      becomeCandidate { r with electionElapsed := 0, leaderActive := false } = some r' := by
  rcases tick_cases h with ⟨-, h⟩ | ⟨-, h⟩
  · obtain ⟨heartbeatElapsed, heartbeatAcked, msgs, rfl⟩ := tickHeartbeat_frame h
    exact .inl (.of_term rfl rfl rfl (fun hstate => hstate) rfl)
  · rcases tickElection_cases h with ⟨-, rfl⟩ | ⟨-, h⟩
    · exact .inl (.of_term rfl rfl rfl (fun hstate => hstate) rfl)
    · exact .inr h

theorem becomeCandidate_contested (h : r.becomeCandidate = some r')
    (hstate : r'.state = .candidate) : 2 ≤ r'.quorumSize := by
  rcases becomeCandidate_cases h with ⟨-, hlead⟩ | ⟨hquorum, rfl⟩
  · rw [(becomeLeader_frame hlead).1] at hstate
    cases hstate
  · have hown : r.id ∈ r.candidacy.votes.trueKeys := by
      rw [GoMap.mem_trueKeys]
      exact (GoMap.lookup_write (GoMap.write_make r.id true) r.id).trans (if_pos rfl)
    have hcard := Finset.card_pos.mpr ⟨_, hown⟩
    have hfew : r.candidacy.votes.trueKeys.card < r.candidacy.quorumSize := by
      simpa [quorum] using hquorum
    change 2 ≤ r.candidacy.quorumSize
    omega

theorem mem_tally {preVotes : GoMap String Bool} {q : String}
    (hwrite : r.preTally.write msg.sender (!msg.reject) = some preVotes)
    (hq : q ∈ preVotes.trueKeys) :
    q = r.id ∨ q ∈ r.preVotes.trueKeys ∨ q = msg.sender ∧ msg.reject = false := by
  rw [GoMap.mem_trueKeys, GoMap.lookup_write hwrite] at hq
  split at hq
  next heq => exact .inr (.inr ⟨heq, by simpa using hq⟩)
  next =>
    rcases r.preTally_cases with hsame | hmade
    · rw [hsame] at hq
      exact .inr (.inl (GoMap.mem_trueKeys.mpr hq))
    · rw [GoMap.lookup_write hmade] at hq
      split at hq
      next heq => exact .inl heq
      next =>
        rw [GoMap.lookup_make] at hq
        cases hq

theorem tally_rejected {preVotes : GoMap String Bool} (hmany : 2 ≤ r.quorumSize)
    (hfew : r.preVotes.trueKeys.card < r.quorumSize) (hreject : msg.reject = true)
    (hwrite : r.preTally.write msg.sender (!msg.reject) = some preVotes) :
    preVotes.trueKeys.card < r.quorumSize := by
  have hsub : preVotes.trueKeys ⊆ r.preTally.trueKeys := by
    intro q hq
    rw [GoMap.mem_trueKeys, GoMap.lookup_write hwrite] at hq
    split at hq
    · simp [hreject] at hq
    · exact GoMap.mem_trueKeys.mpr hq
  refine (Finset.card_le_card hsub).trans_lt ?_
  rcases r.preTally_cases with hsame | hmade
  · rwa [hsame]
  · have hown : r.preTally.trueKeys ⊆ {r.id} := by
      intro q hq
      rw [GoMap.mem_trueKeys, GoMap.lookup_write hmade] at hq
      by_contra hne
      rw [if_neg (by simpa using hne), GoMap.lookup_make] at hq
      cases hq
    have hcard := Finset.card_le_card hown
    rw [Finset.card_singleton] at hcard
    omega

end Raft

namespace Canvass

variable {s s' : Canvass} {op : Op} {r' : Raft} {msg : Message}

theorem Backed.aside (h : s.Backed) (haside : s.raft.Aside r') (granters : Finset String) :
    Backed { raft := r', granters := s.granters ∪ granters, clean := s.clean } where
  contested := fun hstate => (h.contested (haside.candidate hstate)).trans haside.quorum
  fresh := by
    intro hclean q hq
    rw [haside.preVotes] at hq
    refine (h.fresh hclean q hq).imp (fun hself => ?_) fun hmem => Finset.mem_union_left _ hmem
    exact hself.trans haside.id.symm
  few := by
    intro hclean hstate
    rw [haside.preVotes]
    exact (h.few hclean (haside.candidate hstate)).trans_le haside.quorum

theorem Backed.entered {r : Raft} (hcand : r.becomeCandidate = some r') :
    Backed { raft := r', clean := r'.preVotes.trueKeys ⊆ {r'.id} } where
  contested := Raft.becomeCandidate_contested hcand
  fresh := by
    intro hclean q hq
    exact .inl (Finset.mem_singleton.mp (of_decide_eq_true hclean hq))
  few := by
    intro hclean hstate
    have hcard := Finset.card_le_card (of_decide_eq_true hclean)
    have hmany := Raft.becomeCandidate_contested hcand hstate
    rw [Finset.card_singleton] at hcard
    simp only
    omega

theorem Backed.counted (h : s.Backed) (htype : msg.type = .requestVoteResp)
    (hpre : msg.isPreVote = true) (hstate : s.raft.state = .candidate)
    {preVotes : GoMap String Bool}
    (hwrite : s.raft.preTally.write msg.sender (!msg.reject) = some preVotes)
    (hfew : preVotes.trueKeys.card < s.raft.quorumSize) :
    Backed
      { raft := { s.raft with preVotes }
        granters := s.granters ∪ (Op.step msg).granter, clean := s.clean } where
  contested := fun _ => h.contested hstate
  fresh := by
    intro hclean q hq
    rcases Raft.mem_tally hwrite hq with hself | hold | ⟨rfl, hgrant⟩
    · exact .inl hself
    · exact (h.fresh hclean q hold).imp_right fun hmem => Finset.mem_union_left _ hmem
    · refine .inr (Finset.mem_union_right _ ?_)
      simp [Op.granter, htype, hpre, hgrant]
  few := fun _ _ => hfew

theorem perform_of_starts {raft : Raft} (h : s.raft.perform op = some raft)
    (hstarts : s.raft.StartsElection raft) (hperform : s.perform op = some s') :
    s' = { raft, clean := raft.preVotes.trueKeys ⊆ {raft.id} } := by
  rw [perform, h, Option.map_some, if_pos hstarts] at hperform
  exact (Option.some.inj hperform).symm

theorem perform_of_aside {raft : Raft} (h : s.raft.perform op = some raft)
    (hstarts : ¬ s.raft.StartsElection raft) (hperform : s.perform op = some s') :
    s' = { raft, granters := s.granters ∪ op.granter, clean := s.clean } := by
  rw [perform, h, Option.map_some, if_neg hstarts] at hperform
  exact (Option.some.inj hperform).symm

theorem perform_backed (h : s.Backed) (hperform : s.perform op = some s') : s'.Backed := by
  obtain ⟨raft, hraft, -⟩ := Option.map_eq_some_iff.mp hperform
  have haside : s.raft.Aside raft → s'.Backed := by
    intro haside
    rw [perform_of_aside hraft haside.starts hperform]
    exact h.aside haside _
  have hentered : ∀ r₁ : Raft, r₁.becomeCandidate = some raft →
      r₁.currentTerm = s.raft.currentTerm → r₁.id = s.raft.id → s'.Backed := by
    intro r₁ hcand hterm hid
    rw [perform_of_starts hraft (Raft.becomeCandidate_starts hcand hterm hid) hperform]
    exact .entered hcand
  cases op with
  | tick =>
    rcases Raft.tick_aside hraft with hother | hcand
    · exact haside hother
    · exact hentered _ hcand rfl rfl
  | step msg =>
    rcases Raft.step_aside hraft with hother | ⟨htype, hpre, hstate, hresp⟩
    · exact haside hother
    · rw [Raft.handlePreVoteResp_eq] at hresp
      obtain ⟨preVotes, hwrite, hresp⟩ := Option.bind_eq_some_iff.mp hresp
      split at hresp
      next => exact hentered _ hresp rfl rfl
      next hfew =>
        cases hresp
        have hno : ¬ s.raft.StartsElection { s.raft with preVotes } :=
          fun hno => Raft.succ64_ne _ hno.1.symm
        rw [perform_of_aside hraft hno hperform]
        exact h.counted htype hpre hstate hwrite (Nat.lt_of_not_le hfew)
  | _ =>
    refine haside (Raft.perform_aside ?_ ?_ hraft)
    · exact Op.noConfusion
    · exact fun _ => Op.noConfusion

theorem Run.backed {newSource : Int → Nat → Nat} {cfg : Config} (hrun : Run newSource cfg s) :
    s.Backed := by
  induction hrun with
  | start h =>
    obtain ⟨raft, hnew, rfl⟩ := Option.map_eq_some_iff.mp h
    obtain ⟨rand, -, rfl⟩ := Raft.newRaft_eq hnew
    exact ⟨nofun, fun _ _ hno => absurd hno (Finset.notMem_empty _), fun _ hno => by cases hno⟩
  | step _ _ hperform ih => exact perform_backed ih hperform

end Canvass

/-- Where nobody else's grant was in the tally when the instance last entered
`becomeCandidate`, an election that a pre-vote response starts rests on grants since then,
the response among them. -/
theorem pre_vote_quorum_fresh {newSource : Int → Nat → Nat} {cfg : Config} {s : Canvass}
    {msg : Message} {r' : Raft} (hrun : Canvass.Run newSource cfg s) (hclean : s.clean = true)
    (htype : msg.type = .requestVoteResp) (hpre : msg.isPreVote = true)
    (hstep : s.raft.step msg = some r') (hstarts : s.raft.StartsElection r') :
    msg.reject = false ∧
      s.raft.quorumSize - 1 ≤ ((s.granters ∪ (Op.step msg).granter).erase s.raft.id).card := by
  have hbacked := hrun.backed
  obtain ⟨r₁, hstands⟩ := Option.isSome_iff_exists.mp
    ((Raft.starts_iff_stands (show s.raft.perform (.step msg) = some r' from hstep)).mp hstarts)
  obtain ⟨-, -, hstate, preVotes, hwrite, hquorum, -⟩ := Raft.stands_step_cases hstands
  have hgrant : msg.reject = false := by
    by_contra hreject
    have := Raft.tally_rejected (hbacked.contested hstate) (hbacked.few hclean hstate)
      (eq_true_of_ne_false hreject) hwrite
    omega
  refine ⟨hgrant, ?_⟩
  have hsub : preVotes.trueKeys.erase s.raft.id ⊆
      (s.granters ∪ (Op.step msg).granter).erase s.raft.id := by
    intro q hq
    obtain ⟨hother, hq⟩ := Finset.mem_erase.mp hq
    refine Finset.mem_erase.mpr ⟨hother, ?_⟩
    rcases Raft.mem_tally hwrite hq with hself | hold | ⟨rfl, -⟩
    · exact absurd hself hother
    · exact Finset.mem_union_left _ ((hbacked.fresh hclean q hold).resolve_left hother)
    · refine Finset.mem_union_right _ ?_
      simp [Op.granter, htype, hpre, hgrant]
  have hcard := Finset.card_le_card hsub
  have hless := Finset.pred_card_le_card_erase (s := preVotes.trueKeys) (a := s.raft.id)
  omega

/-- A candidate of five that grants of two others send into a second election. -/
theorem pre_vote_quorum_fresh_first :
    ∃ s r', Canvass.Run (fun _ _ => 0)
        { id := "a", peers := ["b", "c", "d", "e"], electionTimeout := 5
          heartbeatTimeout := 1 } s ∧
      s.raft.step { type := .requestVoteResp, sender := "c", recipient := "a", term := 0
                    isPreVote := true } = some r' ∧
      s.raft.StartsElection r' ∧ s.raft.quorumSize = 3 ∧
      2 ≤ ((s.granters ∪ {"c"}).erase "a").card := by
  obtain ⟨s, hrun, hclean, hid, hquorum, hany⟩ :
      ∃ s, Canvass.Run (fun _ _ => 0)
          { id := "a", peers := ["b", "c", "d", "e"], electionTimeout := 5, heartbeatTimeout := 1 }
          s ∧
        s.clean = true ∧ s.raft.id = "a" ∧ s.raft.quorumSize = 3 ∧
        (s.raft.step { type := .requestVoteResp, sender := "c", recipient := "a", term := 0
                       isPreVote := true }).any
          (fun r' => decide (s.raft.StartsElection r')) = true :=
    Reachable.of_any
      [.tick, .tick, .tick, .tick, .tick,
        .step { type := .requestVoteResp, sender := "b", recipient := "a", term := 0
                isPreVote := true }] rfl
  obtain ⟨r', hstep, hstarts⟩ := (Option.any_eq_true _ _).mp hany
  have hstarts := of_decide_eq_true hstarts
  obtain ⟨-, hcard⟩ := pre_vote_quorum_fresh hrun hclean rfl rfl hstep hstarts
  rw [hquorum, hid] at hcard
  exact ⟨s, r', hrun, hstep, hstarts, hquorum, hcard⟩

/-- After that election a rejection by another node starts a third, without a grant. -/
theorem rejection_starts_election :
    ∃ s r', Canvass.Run (fun _ _ => 0)
        { id := "a", peers := ["b", "c", "d", "e"], electionTimeout := 5
          heartbeatTimeout := 1 } s ∧
      s.granters = ∅ ∧ s.raft.quorumSize = 3 ∧
      s.raft.step { type := .requestVoteResp, sender := "d", recipient := "a", term := 0
                    isPreVote := true, reject := true } = some r' ∧
      s.raft.StartsElection r' := by
  obtain ⟨s, hrun, hnone, hquorum, hany⟩ :
      ∃ s, Canvass.Run (fun _ _ => 0)
          { id := "a", peers := ["b", "c", "d", "e"], electionTimeout := 5, heartbeatTimeout := 1 }
          s ∧
        s.granters = ∅ ∧ s.raft.quorumSize = 3 ∧
        (s.raft.step { type := .requestVoteResp, sender := "d", recipient := "a", term := 0
                       isPreVote := true, reject := true }).any
          (fun r' => decide (s.raft.StartsElection r')) = true :=
    Reachable.of_any
      [.tick, .tick, .tick, .tick, .tick,
        .step { type := .requestVoteResp, sender := "b", recipient := "a", term := 0
                isPreVote := true },
        .step { type := .requestVoteResp, sender := "c", recipient := "a", term := 0
                isPreVote := true }] rfl
  obtain ⟨r', hstep, hstarts⟩ := (Option.any_eq_true _ _).mp hany
  exact ⟨s, r', hrun, hnone, hquorum, hstep, of_decide_eq_true hstarts⟩

end Phalanx
