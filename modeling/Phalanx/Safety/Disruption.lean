import Phalanx.Raft.Operations
import Phalanx.Raft.Timers

/-! What an instance does to its term, and to requests for its vote, on its own. Pre-votes
were meant to keep a node that is cut off from raising its term, but the election clock
starts a real election; leader stickiness was meant to turn every candidate away, but a
later term is honoured before the flag is looked at. -/
namespace Phalanx

open Go

namespace Raft

variable {r r' : Raft} {msg : Message}

/-- No pre-vote of another node and no later term comes in. -/
def Isolated (r : Raft) : Op → Prop
  | .step msg => msg.term ≤ r.currentTerm ∧
      ¬ (msg.type = .requestVoteResp ∧ msg.isPreVote = true ∧ msg.reject = false ∧
        msg.sender ≠ r.id)
  | _ => True

instance (r : Raft) : (op : Op) → Decidable (r.Isolated op)
  | .step _ => inferInstanceAs (Decidable (_ ∧ _))
  | .tick | .propose _ | .addPeer _ | .messages | .applicableEntries =>
    inferInstanceAs (Decidable True)

def Early (r : Raft) : Op → Prop
  | .tick => r.state = .leader ∨ r.electionElapsed + 1 < r.electionTimeout
  | _ => True

instance (r : Raft) : (op : Op) → Decidable (r.Early op)
  | .tick => inferInstanceAs (Decidable (_ ∨ _))
  | .step _ | .propose _ | .addPeer _ | .messages | .applicableEntries =>
    inferInstanceAs (Decidable True)

/-- An instance with peers whose pre-votes are its own at most. -/
structure Unbacked (r : Raft) : Prop where
  peers : r.peers ≠ []
  preVotes : r.preVotes.trueKeys ⊆ {r.id}

theorem Unbacked.few (h : r.Unbacked) {preVotes : GoMap String Bool}
    (hown : preVotes.trueKeys ⊆ {r.id}) : preVotes.trueKeys.card < r.quorumSize := by
  have hcard := Finset.card_le_card hown
  have hlen := List.length_pos_iff.mpr h.peers
  rw [Finset.card_singleton] at hcard
  unfold quorumSize clusterSize
  omega

theorem Unbacked.tally (h : r.Unbacked) {tally preVotes : GoMap String Bool}
    (htally : tally = r.preVotes ∨ GoMap.make.write r.id true = some tally)
    (hwrite : tally.write msg.sender (!msg.reject) = some preVotes)
    (hown : msg.reject = true ∨ msg.sender = r.id) : preVotes.trueKeys ⊆ {r.id} := by
  intro q hq
  rw [Finset.mem_singleton]
  rw [GoMap.mem_trueKeys, GoMap.lookup_write hwrite] at hq
  split at hq
  next heq =>
    rcases hown with hreject | hself
    · simp [hreject] at hq
    · exact heq.trans hself
  next =>
    rcases htally with rfl | hmade
    · exact Finset.mem_singleton.mp (h.preVotes (GoMap.mem_trueKeys.mpr hq))
    · rw [GoMap.lookup_write hmade] at hq
      split at hq
      · assumption
      · rw [GoMap.lookup_make] at hq
        cases hq

theorem Moves.unbacked {inbox : Message → Prop} {clock : Nat → Prop} (h : r.Unbacked)
    (hmoves : Moves inbox clock r r') : r'.Unbacked := by
  have hsame := hmoves.same
  refine ⟨hsame.peers ▸ h.peers, ?_⟩
  rw [hsame.preVotes, hsame.id]
  exact h.preVotes

theorem tick_keeps_term (hearly : r.Early .tick) (htick : r.tick = some r') :
    r'.currentTerm = r.currentTerm := by
  rcases tick_cases htick with ⟨hlead, -⟩ | ⟨hstate, h⟩
  · exact (tick_paced hlead htick).2.1
  · rcases tickElection_cases h with ⟨-, rfl⟩ | ⟨hdue, -⟩
    · rfl
    · have := hearly.resolve_left hstate
      omega

theorem step_keeps_term (h : r.Unbacked) (hisolated : r.Isolated (.step msg))
    (hstep : r.step msg = some r') : r'.currentTerm = r.currentTerm ∧ r'.Unbacked := by
  obtain ⟨hterm, hgrant⟩ := hisolated
  rcases step_cases hstep with ⟨-, hreal⟩ | ⟨-, -, -, reject, rfl⟩ | ⟨hpre, htype, rfl | ⟨-, hresp⟩⟩
  · have hmoves : Moves (fun m => m = { msg with isPreVote := false }) (fun _ => False) r r' :=
      step_moves rfl rfl hreal
    refine ⟨hmoves.keeps_term (fun _ hno => hno) ?_, Moves.unbacked h hmoves⟩
    rintro m rfl
    exact hterm
  · exact ⟨rfl, h.peers, h.preVotes⟩
  · exact ⟨rfl, h⟩
  · have hown : msg.reject = true ∨ msg.sender = r.id := by
      by_contra hno
      push Not at hno
      exact hgrant ⟨htype, hpre, eq_false_of_ne_true hno.1, hno.2⟩
    obtain ⟨tally, preVotes, htally, hwrite, ⟨hquorum, -⟩ | ⟨-, rfl⟩⟩ :=
      handlePreVoteResp_cases hresp
    · have := h.few (h.tally htally hwrite hown)
      omega
    · exact ⟨rfl, h.peers, h.tally htally hwrite hown⟩

theorem perform_keeps_term {op : Op} (h : r.Unbacked) (hisolated : r.Isolated op)
    (hearly : r.Early op) (hperform : r.perform op = some r') :
    r'.currentTerm = r.currentTerm ∧ r'.Unbacked := by
  cases op with
  | tick =>
    have hmoves : Moves (fun _ => False) (fun _ => True) r r' := tick_moves trivial hperform
    exact ⟨tick_keeps_term hearly hperform, Moves.unbacked h hmoves⟩
  | step msg => exact step_keeps_term h hisolated hperform
  | propose data =>
    obtain ⟨⟨index, r₁⟩, hpropose, hr₁⟩ := Option.map_eq_some_iff.mp hperform
    cases hr₁
    have hmoves : Moves (fun _ => False) (fun _ => False) r r₁ := propose_moves hpropose
    exact ⟨hmoves.keeps_term (fun _ hno => hno) (fun _ hno => hno.elim), Moves.unbacked h hmoves⟩
  | addPeer nodeID =>
    cases hperform
    unfold addPeer
    split
    · exact ⟨rfl, h⟩
    · split
      · exact ⟨rfl, h⟩
      · exact ⟨rfl, by simp, h.preVotes⟩
  | messages =>
    cases hperform
    exact ⟨rfl, h.peers, h.preVotes⟩
  | applicableEntries =>
    cases hperform
    rw [applicableEntries_eq]
    exact ⟨rfl, h.peers, h.preVotes⟩

theorem Run.keeps_term {newSource : Int → Nat → Nat} {cfg : Config} (hpeers : cfg.peers ≠ [])
    (hrun : Run newSource cfg (fun r op => r.Isolated op ∧ r.Early op) r) :
    r.currentTerm = cfg.initialTerm ∧ r.Unbacked := by
  induction hrun with
  | start h =>
    obtain ⟨rand, -, rfl⟩ := newRaft_eq h
    exact ⟨rfl, hpeers, Finset.empty_subset _⟩
  | step _ hok hperform ih =>
    obtain ⟨hterm, hunbacked⟩ := perform_keeps_term ih.2 hok.1 hok.2 hperform
    exact ⟨hterm.trans ih.1, hunbacked⟩

end Raft

/-- An instance with peers keeps its term as long as nobody backs it and its election clock
does not run out. -/
theorem no_term_inflation {newSource : Int → Nat → Nat} {cfg : Config} {r : Raft}
    (hpeers : cfg.peers ≠ [])
    (hrun : Raft.Run newSource cfg (fun r op => r.Isolated op ∧ r.Early op) r) :
    r.currentTerm = cfg.initialTerm :=
  (Raft.Run.keeps_term hpeers hrun).1

/-- A follower whose leader beats in time keeps its term. -/
theorem no_term_inflation_heartbeat :
    ∃ r, Raft.Run (fun _ _ => 0)
        { id := "a", peers := ["b", "c"], electionTimeout := 2, heartbeatTimeout := 1,
          initialTerm := 1 }
        (fun r op => r.Isolated op ∧ r.Early op) r ∧ r.leaderID = "b" ∧ r.currentTerm = 1 := by
  obtain ⟨r, hrun, hleader⟩ :
      ∃ r, Raft.Run (fun _ _ => 0)
          { id := "a", peers := ["b", "c"], electionTimeout := 2, heartbeatTimeout := 1,
            initialTerm := 1 }
          (fun r op => r.Isolated op ∧ r.Early op) r ∧ r.leaderID = "b" :=
    Reachable.of_any
      [.tick, .step { type := .appendEntries, sender := "b", recipient := "a", term := 1 },
        .tick] rfl
  exact ⟨r, hrun, hleader, no_term_inflation (by decide) hrun⟩

/-- A node that hears nothing raises its term with every election timeout. -/
theorem cut_off_node_raises_term :
    ∃ r, Raft.Run (fun _ _ => 0)
        { id := "a", peers := ["b", "c"], electionTimeout := 1, heartbeatTimeout := 1 }
        (fun _ op => op = .tick) r ∧ r.currentTerm = 2 :=
  Reachable.of_any [.tick, .tick] rfl

/-- An instance and the ticks since it last handled a valid AppendEntries. -/
structure Watched where
  raft : Raft
  since : Option Nat := none

namespace Watched

def valid (r : Raft) (msg : Message) : Bool :=
  msg.type = .appendEntries ∧ r.currentTerm ≤ msg.term ∧ msg.sender ≠ None

def elapse (s : Watched) : Op → Option Nat
  | .tick => s.since.map (· + 1)
  | .step msg => if valid s.raft msg then some 0 else s.since
  | _ => s.since

def perform (s : Watched) (op : Op) : Option Watched :=
  (s.raft.perform op).map fun raft => { raft, since := s.elapse op }

abbrev Run (newSource : Int → Nat → Nat) (cfg : Config) (ok : Watched → Op → Prop) :
    Watched → Prop :=
  Reachable ((Raft.newRaft newSource cfg).map fun raft => { raft }) perform ok

/-- Since the last valid AppendEntries, no later term has come in except with another or in
a pre-vote, and no AppendEntries without a sender. -/
def Undisturbed (s : Watched) : Op → Prop
  | .step msg => s.since ≠ none →
      (msg.type = .appendEntries → msg.sender ≠ None) ∧
      (msg.type ≠ .appendEntries → msg.term ≤ s.raft.currentTerm ∨
        msg.isPreVote = true ∧ (msg.type = .requestVote ∨ msg.type = .requestVoteResp))
  | _ => True

instance (s : Watched) : (op : Op) → Decidable (s.Undisturbed op)
  | .step _ => inferInstanceAs (Decidable (_ → _))
  | .tick | .propose _ | .addPeer _ | .messages | .applicableEntries =>
    inferInstanceAs (Decidable True)

/-- A follower that has heard from a leader takes it to be there still. -/
def Loyal (s : Watched) : Prop :=
  s.since ≠ none → s.raft.state = .follower → s.raft.leaderActive = true

end Watched

namespace Raft

variable {inbox : Message → Prop} {clock : Nat → Prop} {r r' : Raft} {msg : Message}

theorem Move.stays_office (hinbox : ∀ m, inbox m → m.term ≤ r.currentTerm ∧ m.type ≠ .appendEntries)
    (hstate : r.state ≠ .follower) (hmove : Move inbox clock r r') : r'.state ≠ .follower := by
  cases hmove with
  | stand => exact nofun
  | win => exact nofun
  | broadcast _ _ h =>
    obtain ⟨out, -, rfl⟩ := broadcastHeartbeat_eq h
    exact hstate
  | observe msg hin hlater => exact absurd hlater (Nat.not_lt_of_le (hinbox msg hin).1)
  | heed msg hin htype => exact absurd htype (hinbox msg hin).2
  | accept msg log hin htype => exact absurd htype (hinbox msg hin).2
  | _ => exact hstate

theorem Moves.stays_office (hclock : ∀ t, ¬ clock t)
    (hinbox : ∀ m, inbox m → m.term ≤ r.currentTerm ∧ m.type ≠ .appendEntries)
    (hstate : r.state ≠ .follower) (hmoves : Moves inbox clock r r') : r'.state ≠ .follower := by
  induction hmoves with
  | refl => exact hstate
  | tail hmoves hmove ih =>
    have hterm := Moves.keeps_term hclock (fun m hm => (hinbox m hm).1) hmoves
    refine hmove.stays_office (fun m hm => ?_) ih
    rw [hterm]
    exact hinbox m hm

theorem becomeCandidate_not_follower (h : r.becomeCandidate = some r') :
    r'.state ≠ .follower := by
  rcases becomeCandidate_cases h with ⟨-, h⟩ | ⟨-, rfl⟩
  · obtain ⟨out, -, rfl⟩ := broadcastHeartbeat_eq h
    exact nofun
  · exact nofun

theorem tick_loyal (hactive : r.state = .follower → r.leaderActive = true)
    (htick : r.tick = some r') (hstate : r'.state = .follower) : r'.leaderActive = true := by
  rcases tick_cases htick with ⟨hlead, -⟩ | ⟨-, h⟩
  · rw [(tick_paced hlead htick).1] at hstate
    cases hstate
  · rcases tickElection_cases h with ⟨-, rfl⟩ | ⟨-, h⟩
    · exact hactive hstate
    · exact absurd hstate (becomeCandidate_not_follower h)

theorem step_loyal (hactive : r.state = .follower → r.leaderActive = true)
    (hother : msg.type ≠ .appendEntries)
    (hterm : msg.term ≤ r.currentTerm ∨
      msg.isPreVote = true ∧ (msg.type = .requestVote ∨ msg.type = .requestVoteResp))
    (hstep : r.step msg = some r') (hstate : r'.state = .follower) : r'.leaderActive = true := by
  rcases step_cases hstep with ⟨hreal, hstep⟩ | ⟨-, -, -, reject, rfl⟩ |
    ⟨-, -, rfl | ⟨hcand, hresp⟩⟩
  · have hterm := hterm.resolve_right hreal
    have hmoves : Moves (fun m => m = { msg with isPreVote := false }) (fun _ => False) r r' :=
      step_moves rfl rfl hstep
    by_cases hfollower : r.state = .follower
    · have hsticky : Sticky r.currentTerm (max 0 r.electionElapsed) r :=
        ⟨hfollower, rfl, hactive hfollower, le_max_right _ _⟩
      refine (Moves.sticky (fun _ hno => hno) ?_ (le_max_left _ _) hsticky hmoves).active
      rintro m rfl
      exact hterm
    · refine absurd hstate (Moves.stays_office (fun _ hno => hno) ?_ hfollower hmoves)
      rintro m rfl
      exact ⟨hterm, hother⟩
  · exact hactive hstate
  · exact hactive hstate
  · exfalso
    obtain ⟨tally, preVotes, -, -, ⟨-, hwon⟩ | ⟨-, rfl⟩⟩ := handlePreVoteResp_cases hresp
    · exact becomeCandidate_not_follower hwon hstate
    · simp [hcand] at hstate

theorem step_hears (hvalid : Watched.valid r msg = true) (hstep : r.step msg = some r') :
    r'.state = .follower ∧ r'.leaderActive = true := by
  obtain ⟨htype, hterm, hsender⟩ := of_decide_eq_true hvalid
  obtain ⟨r₁, hr₁, hhandle⟩ := Option.bind_eq_some_iff.mp hstep
  have hfresh : ¬ msg.term < r₁.currentTerm := by
    rcases observeTerm_cases hr₁ with rfl | ⟨-, leaderID, rfl⟩
    · omega
    · exact Nat.lt_irrefl _
  rw [handle, htype] at hhandle
  rcases handleAppendEntries_cases hhandle with ⟨hstale, -⟩ | ⟨-, hstate, hactive⟩
  · exact absurd hstale hfresh
  · exact ⟨hstate, hactive hsender⟩

def TurnsAway (r : Raft) (msg : Message) : Prop :=
  ∃ r' reply, r.step msg = some r' ∧ r'.msgs = r.msgs ++ [reply] ∧
    reply.type = .requestVoteResp ∧ reply.recipient = msg.sender ∧ reply.reject = true ∧
    r'.currentTerm = r.currentTerm ∧ r'.votedFor = r.votedFor ∧ r'.state = r.state ∧
    r'.leaderID = r.leaderID

/-- A request that the flag covers, or a pre-vote for a log that is behind. -/
def Resists (r : Raft) (msg : Message) : Prop :=
  msg.term ≤ r.currentTerm ∨
    msg.isPreVote = true ∧ r.isLogUpToDate msg.lastLogIndex msg.lastLogTerm = false

instance (r : Raft) (msg : Message) : Decidable (r.Resists msg) :=
  inferInstanceAs (Decidable (_ ∨ _))

theorem turnsAway_of_active (hactive : r.leaderActive = true) (htype : msg.type = .requestVote)
    (hresists : r.Resists msg) : r.TurnsAway msg := by
  have hobserve : r.observeTerm msg = some r := by
    unfold observeTerm
    rw [if_neg]
    rintro ⟨hlater, hreal⟩
    rcases hresists with hle | ⟨hpre, -⟩
    · omega
    · exact hreal ⟨hpre, .inl htype⟩
  unfold TurnsAway
  rw [step, hobserve, Option.bind_eq_bind, Option.bind_some, handle, htype]
  simp only
  by_cases hle : msg.term ≤ r.currentTerm
  · unfold handleRequestVote
    simp only [hactive, hle, and_self, if_true]
    exact ⟨_, _, rfl, rfl, rfl, rfl, rfl, rfl, rfl, rfl, rfl⟩
  · obtain ⟨hpre, hbehind⟩ := hresists.resolve_left hle
    unfold handleRequestVote
    simp only [hle, and_false, if_false, hpre, if_true, hbehind, Bool.and_false, Bool.not_false]
    exact ⟨_, _, rfl, rfl, rfl, rfl, rfl, rfl, rfl, rfl, rfl⟩

end Raft

namespace Watched

variable {s s' : Watched}

theorem perform_loyal {op : Op} (h : s.Loyal) (hok : s.Undisturbed op)
    (hperform : s.perform op = some s') : s'.Loyal := by
  obtain ⟨r', hr', hs'⟩ := Option.map_eq_some_iff.mp hperform
  cases hs'
  intro hheard hstate
  simp only at hheard hstate ⊢
  cases op with
  | tick =>
    have hbefore : s.since ≠ none := fun hno => hheard (by simp [elapse, hno])
    exact Raft.tick_loyal (h hbefore) hr' hstate
  | step msg =>
    by_cases hvalid : valid s.raft msg = true
    · exact (Raft.step_hears hvalid hr').2
    · simp only [elapse, hvalid] at hheard
      obtain ⟨hnamed, hterm⟩ := hok hheard
      by_cases htype : msg.type = .appendEntries
      · -- only an AppendEntries of an earlier term is left, and it changes nothing
        have hstale : msg.term < s.raft.currentTerm := by
          by_contra hfresh
          exact hvalid (decide_eq_true ⟨htype, Nat.le_of_not_lt hfresh, hnamed htype⟩)
        obtain ⟨r₁, hr₁, hhandle⟩ := Option.bind_eq_some_iff.mp hr'
        rcases Raft.observeTerm_cases hr₁ with rfl | ⟨hlater, -⟩
        · rw [Raft.handle, htype] at hhandle
          rcases Raft.handleAppendEntries_cases hhandle with ⟨-, msgs, rfl⟩ | ⟨hfresh, -⟩
          · exact h hheard hstate
          · omega
        · omega
      · exact Raft.step_loyal (h hheard) htype (hterm htype) hr' hstate
  | propose data =>
    obtain ⟨⟨index, r₁⟩, hpropose, hr₁⟩ := Option.map_eq_some_iff.mp hr'
    cases hr₁
    rcases Raft.propose_cases hpropose with ⟨-, rfl⟩ | ⟨hlead, -, matchIndex, -, hcast⟩
    · exact h hheard hstate
    · obtain ⟨out, -, rfl⟩ := Raft.broadcastHeartbeat_eq hcast
      exact absurd hstate (by simp [hlead])
  | addPeer nodeID =>
    cases hr'
    revert hstate
    unfold Raft.addPeer
    split
    · exact h hheard
    · split <;> exact h hheard
  | messages =>
    cases hr'
    exact h hheard hstate
  | applicableEntries =>
    cases hr'
    rw [Raft.applicableEntries_eq] at hstate ⊢
    exact h hheard hstate

theorem Run.loyal {newSource : Int → Nat → Nat} {cfg : Config}
    (hrun : Run newSource cfg (fun s op => s.Undisturbed op) s) : s.Loyal := by
  induction hrun with
  | start h =>
    obtain ⟨raft, -, hs⟩ := Option.map_eq_some_iff.mp h
    cases hs
    exact fun hno => absurd rfl hno
  | step _ hok hperform ih => exact perform_loyal ih hok hperform

end Watched

/-- As long as no later term came in since the last AppendEntries, a follower turns away
whoever asks for its vote in a term that is not later, and pre-votes for a log behind. -/
theorem leader_stickiness {newSource : Int → Nat → Nat} {cfg : Config} {s : Watched} {k : Nat}
    {msg : Message} (hrun : Watched.Run newSource cfg (fun s op => s.Undisturbed op) s)
    (hfollower : s.raft.state = .follower) (hheard : s.since = some k)
    (htype : msg.type = .requestVote) (hresists : s.raft.Resists msg) : s.raft.TurnsAway msg := by
  have hactive := hrun.loyal (by simp [hheard]) hfollower
  exact Raft.turnsAway_of_active hactive htype hresists

/-- A follower that has just heard from B turns C away, in its own term and, with an empty
log against its own, before a later one. -/
theorem leader_stickiness_turned_away :
    ∃ s, Watched.Run (fun _ _ => 0)
        { id := "a", peers := ["b", "c"], electionTimeout := 5, heartbeatTimeout := 1 }
        (fun s op => s.Undisturbed op) s ∧
      s.raft.TurnsAway
        { type := .requestVote, sender := "c", recipient := "a", term := 1 } ∧
      s.raft.TurnsAway
        { type := .requestVote, sender := "c", recipient := "a", term := 2,
          isPreVote := true } := by
  obtain ⟨s, hrun, hfollower, hheard, hreal, hpre⟩ :
      ∃ s, Watched.Run (fun _ _ => 0)
          { id := "a", peers := ["b", "c"], electionTimeout := 5, heartbeatTimeout := 1 }
          (fun s op => s.Undisturbed op) s ∧
        s.raft.state = .follower ∧ s.since = some 1 ∧
        s.raft.Resists { type := .requestVote, sender := "c", recipient := "a", term := 1 } ∧
        s.raft.Resists
          { type := .requestVote, sender := "c", recipient := "a", term := 2, isPreVote := true } :=
    Reachable.of_any
      [.step { type := .appendEntries, sender := "b", recipient := "a", term := 1
               entries := [{ index := 1, term := 1 }] }, .tick] rfl
  exact ⟨s, hrun, leader_stickiness hrun hfollower hheard rfl hreal,
    leader_stickiness hrun hfollower hheard rfl hpre⟩

/-- A follower that has just heard from B follows C into a later term. -/
theorem later_term_breaks_stickiness :
    ∃ s, Watched.Run (fun _ _ => 0)
        { id := "a", peers := ["b", "c"], electionTimeout := 5, heartbeatTimeout := 1 }
        (fun _ _ => True) s ∧
      s.raft.state = .follower ∧ s.since = some 0 ∧ 0 < s.raft.electionTimeout ∧
      ¬ s.raft.TurnsAway { type := .requestVote, sender := "c", recipient := "a", term := 2 } := by
  obtain ⟨s, hrun, hfollower, hheard, htimeout, hbefore, hafter⟩ :
      ∃ s, Watched.Run (fun _ _ => 0)
          { id := "a", peers := ["b", "c"], electionTimeout := 5, heartbeatTimeout := 1 }
          (fun _ _ => True) s ∧
        s.raft.state = .follower ∧ s.since = some 0 ∧ 0 < s.raft.electionTimeout ∧
        s.raft.currentTerm = 1 ∧
        (s.raft.step { type := .requestVote, sender := "c", recipient := "a", term := 2 }).any
          (fun r => decide (r.currentTerm = 2)) = true :=
    Reachable.of_any
      [.step { type := .appendEntries, sender := "b", recipient := "a", term := 1 }] rfl
  refine ⟨s, hrun, hfollower, hheard, htimeout, ?_⟩
  rintro ⟨r', reply, hstep, -, -, -, -, hterm, -⟩
  rw [hstep, Option.any_some] at hafter
  have := of_decide_eq_true hafter
  omega

end Phalanx
