import Mathlib.Data.Finset.Max
import Mathlib.Data.Prod.Lex
import Phalanx.Progress.Delivery
import Phalanx.Raft.Stopwatch

/-! From every state of a static cluster a leader of the highest term can be had. The node with
the highest term stands, which brings everybody to one term; a node with the most recent log
stands after it and has all the votes. -/
namespace Phalanx

open Consensus Go Raft

namespace Raft

variable {r r' : Raft} {msg : Message} {term : Nat} {granted : Set String}

def ballot (r : Raft) (peer : String) : Message :=
  { type := .requestVote, sender := r.id, recipient := peer, term := r.currentTerm,
    lastLogIndex := r.lastLogIndex, lastLogTerm := r.lastLogTerm }

theorem tick_early (hstate : r.state ≠ .leader)
    (hearly : r.electionElapsed + 1 < r.electionTimeout) :
    r.tick = some { r with electionElapsed := r.electionElapsed + 1 } := by
  rw [tick_of_not_leader hstate, tickElection]
  exact if_neg (by simpa using hearly)

theorem tick_due (hstate : r.state ≠ .leader) (hbase : 0 < r.baseElectionTimeout)
    (hpeers : r.peers ≠ []) (hdue : r.electionTimeout ≤ r.electionElapsed + 1) :
    r.tick = some
      { r with electionElapsed := 0, leaderActive := false }.candidacy.broadcastRequestVote := by
  rw [tick_of_not_leader hstate, tickElection]
  simp only [if_pos hdue]
  rw [becomeCandidate_eq, if_pos (by exact hbase), candidacy_no_quorum _ (by exact hpeers)]
  rfl

theorem step_ballot (msg : Message) (hbase : 0 < r.baseElectionTimeout) (hdrained : r.msgs = [])
    (htype : msg.type = .requestVote) (hreal : msg.isPreVote = false)
    (hterm : r.currentTerm < msg.term) :
    ∃ r' reply, r.step msg = some r' ∧ r'.msgs = [reply] ∧ r'.state = .follower ∧
      r'.currentTerm = msg.term ∧ reply.isPreVote = false ∧ reply.term = msg.term ∧
      reply.reject = !r.isLogUpToDate msg.lastLogIndex msg.lastLogTerm := by
  have hobserve : r.observeTerm msg = some (r.demoted msg.term None) := by
    rw [observeTerm, if_pos ⟨hterm, by simp [hreal]⟩, if_neg (by simp [htype])]
    exact becomeFollower_of_base hbase _ _
  have hmsgs : (r.demoted msg.term None).msgs = [] := hdrained
  rw [step, hobserve, Option.bind_eq_bind, Option.bind_some, handle, htype]
  simp only [handleRequestVote, hreal]
  rw [if_neg (by simp [demoted, redraw]), if_neg (by simp),
    if_neg (by exact Nat.lt_irrefl msg.term)]
  cases hlog : r.isLogUpToDate msg.lastLogIndex msg.lastLogTerm with
  | true =>
    rw [if_pos ⟨.inl rfl, hlog⟩]
    exact ⟨_, _, rfl, congrArg (· ++ _) hmsgs, rfl, rfl, rfl, rfl, rfl⟩
  | false =>
    rw [if_neg fun hboth => Bool.noConfusion (hlog.symm.trans hboth.2)]
    exact ⟨_, _, rfl, congrArg (· ++ _) hmsgs, rfl, rfl, rfl, rfl, rfl⟩

/-- An instance that leads `term`, or stands for it without a quorum yet and with the votes of
all in `granted`. -/
def Campaigns (r : Raft) (term : Nat) (granted : Set String) : Prop :=
  r.currentTerm = term ∧ (r.state = .leader ∨ r.state = .candidate ∧ r.quorum = false ∧
    ∀ q ∈ granted, r.votes.lookup q = some true)

theorem Campaigns.step (h : r.Campaigns term granted) (msg : Message) (hlog : Indexed r.log)
    (hequipped : r.Equipped) (htype : msg.type = .requestVoteResp)
    (hreal : msg.isPreVote = false) (hterm : msg.term = term) (hfresh : msg.sender ∉ granted) :
    ∃ r', r.step msg = some r' ∧
      r'.Campaigns term {q | q ∈ granted ∨ q = msg.sender ∧ msg.reject = false} := by
  obtain ⟨hcurrent, hstate⟩ := h
  have hstep : r.step msg = r.handleRequestVoteResp msg := by
    rw [Raft.step, observeTerm, if_neg (by omega), Option.bind_eq_bind, Option.bind_some, handle,
      htype]
  rw [hstep, handleRequestVoteResp]
  rcases hstate with hlead | ⟨hstands, -, hvotes⟩
  · rw [if_pos (by simp [hlead])]
    exact ⟨r, rfl, hcurrent, .inl hlead⟩
  · obtain ⟨votes, hwrite, hmade⟩ :=
      GoMap.write_of_made (hequipped.votes hstands) msg.sender (!msg.reject)
    rw [if_neg (by simp [hstands]), if_neg (by simp [hreal]), if_neg (by simp [hterm, hcurrent]),
      hwrite, Option.bind_eq_bind, Option.bind_some]
    by_cases hquorum : ({ r with votes } : Raft).quorum = true
    · rw [if_pos hquorum]
      obtain ⟨r', hr', -⟩ := becomeLeader_returns (r := { r with votes }) hlog hequipped.base
      refine ⟨r', hr', ?_⟩
      obtain ⟨out, -, rfl⟩ := broadcastHeartbeat_eq hr'
      exact ⟨hcurrent, .inl rfl⟩
    · rw [if_neg hquorum]
      refine ⟨_, rfl, hcurrent, .inr ⟨hstands, eq_false_of_ne_true hquorum, ?_⟩⟩
      intro q hq
      rw [GoMap.lookup_write hwrite]
      rcases hq with hq | ⟨rfl, hgrants⟩
      · rw [if_neg (by rintro rfl; exact hfresh hq)]
        exact hvotes q hq
      · rw [if_pos rfl, hgrants]
        rfl

theorem Campaigns.leads (h : r.Campaigns term granted) (hnodup : r.peers.Nodup)
    (hself : r.id ∉ r.peers) (hall : ∀ q, q = r.id ∨ q ∈ r.peers → q ∈ granted) :
    r.state = .leader := by
  rcases h.2 with hlead | ⟨-, hquorum, hvotes⟩
  · exact hlead
  · have hsub : insert r.id r.peers.toFinset ⊆ r.votes.trueKeys := by
      intro q hq
      rw [Finset.mem_insert, List.mem_toFinset] at hq
      exact GoMap.mem_trueKeys.mpr (hvotes q (hall q hq))
    have hcard := Finset.card_le_card hsub
    rw [Finset.card_insert_of_notMem (by simpa using hself),
      List.toFinset_card_of_nodup hnodup] at hcard
    have hshort := of_decide_eq_false hquorum
    unfold quorumSize clusterSize at hshort
    omega

/-- The order of logs in which a voter asks for one that is not behind its own. -/
def recency (r : Raft) : Nat ×ₗ Nat := toLex (r.lastLogTerm, r.lastLogIndex)

theorem isLogUpToDate_iff_recency (r r' : Raft) :
    r.isLogUpToDate r'.lastLogIndex r'.lastLogTerm = true ↔ r.recency ≤ r'.recency := by
  unfold isLogUpToDate recency
  rw [Prod.Lex.toLex_le_toLex]
  split
  next hne => simp [Ne.symm hne]
  next heq => simp [not_not.mp heq]

end Raft

variable {w : World} {bound : Nat} {c c' : Cluster} {i p : String} {n n' m : Node} {r : Raft}

namespace Cluster

theorem setNode_populates {j : String} (h : ∃ m, c.node j = some m) (i : String) (n : Node) :
    ∃ m, (c.setNode i n).node j = some m := by
  by_cases hj : j = i
  · exact ⟨n, by rw [hj]; exact Function.update_self ..⟩
  · obtain ⟨m, hm⟩ := h
    exact ⟨m, by rw [← hm]; exact Function.update_of_ne hj ..⟩

theorem start_populated (h : start w = some c) : ∀ i ∈ w.members, ∃ n, c.node i = some n := by
  have hfold : ∀ (l : List String) (c₀ c₁ : Cluster),
      l.foldlM (fun c i => do
        let n ← w.boot i {}
        pure (c.setNode i n)) c₀ = some c₁ →
      ∀ i, (i ∈ l ∨ ∃ n, c₀.node i = some n) → ∃ n, c₁.node i = some n := by
    intro l
    induction l with
    | nil =>
      intro c₀ c₁ h₁ i hi
      cases h₁
      exact hi.resolve_left (List.not_mem_nil)
    | cons k rest ih =>
      intro c₀ c₁ h₁ i hi
      rw [List.foldlM_cons] at h₁
      obtain ⟨c₂, hc₂, h₁⟩ := Option.bind_eq_some_iff.mp h₁
      obtain ⟨n, hn, hc₂⟩ := Option.bind_eq_some_iff.mp hc₂
      cases hc₂
      apply ih _ _ h₁
      rcases hi with hi | hold
      · rcases List.mem_cons.mp hi with rfl | hrest
        · exact .inr ⟨n, Function.update_self ..⟩
        · exact .inl hrest
      · exact .inr (setNode_populates hold k n)
  exact fun i hi => hfold w.members _ c h i (.inl hi)

theorem Fit.populated (h : Fit w bound c) (hi : i ∈ w.members) : ∃ n, c.node i = some n := by
  have hreach := h.reach
  clear h
  induction hreach with
  | start hstart => exact start_populated hstart i hi
  | @step c c' e _ hsteady hstep ih =>
    cases e with
    | handle k stimulus =>
      obtain ⟨n, input, via, -, -, ⟨-, rfl⟩ | ⟨n', -, rfl⟩⟩ := step_handle hstep
      · exact ih
      · exact setNode_populates ih k (n'.release true).1
    | crash k during => exact (Event.not_steady_crash hsteady).elim
    | dial k =>
      obtain ⟨pk, n, dest, -, -, -, -, rfl⟩ := step_dial hstep
      exact ih
    | answer k call success =>
      obtain ⟨n, n', -, -, rfl⟩ := step_answer hstep
      exact setNode_populates ih k n'

theorem Fit.stand (h : Fit w bound c) (hn : c.node i = some n) (hstate : n.raft.state ≠ .leader)
    (hpeers : n.raft.peers ≠ []) (hterm : n.raft.currentTerm < bound) :
    ∃ c' n', Fit w bound c' ∧ Later w c c' ∧ c'.node = Function.update c.node i (some n') ∧
      n'.raft.Campaigns (n.raft.currentTerm + 1) {i} ∧ n'.raft.log = n.raft.log ∧
      ∀ q ∈ n.raft.peers, { origin := i, msg := n'.raft.ballot q, dest := none } ∈ c'.net := by
  generalize hfuel : (n.raft.electionTimeout - n.raft.electionElapsed).toNat = fuel
  induction fuel using Nat.strong_induction_on generalizing c n with
  | h fuel ih =>
    by_cases hdue : n.raft.electionTimeout ≤ n.raft.electionElapsed + 1
    · have hsucc : succ64 n.raft.currentTerm = n.raft.currentTerm + 1 :=
        Nat.mod_eq_of_lt (by have := h.small; omega)
      obtain ⟨s, hs⟩ := h.refines
      have hid := (hs.node i n hn).tracks.id
      have htick := tick_due hstate (h.equipped hn).base hpeers hdue
      obtain ⟨c', hmoved⟩ := h.tick hn htick (by exact hsucc.trans_le hterm)
      obtain ⟨n', lastApplied, hnode, hraft⟩ := hmoved.node
      refine ⟨c', n', hmoved.fit, hmoved.later, hnode, ?_, by rw [hraft]; rfl, fun q hq => ?_⟩
      · rw [hraft]
        refine ⟨hsucc, .inr ⟨rfl, candidacy_no_quorum _ (by exact hpeers), ?_⟩⟩
        rintro q rfl
        change (GoMap.mk (some (Finmap.insert n.raft.id true ∅))).lookup _ = _
        rw [GoMap.lookup_write (GoMap.write_make n.raft.id true), if_pos hid.symm]
      · refine hmoved.sent _ (List.mem_append_right _ (List.mem_map.mpr ⟨q, hq, ?_⟩)) rfl
        rw [hraft]
        rfl
    · have htick := tick_early hstate (by omega)
      obtain ⟨c₁, hmoved⟩ := h.tick hn htick hterm.le
      obtain ⟨n₁, lastApplied, hnode, hraft⟩ := hmoved.node
      have hn₁ : c₁.node i = some n₁ := by rw [hnode, Function.update_self]
      obtain ⟨c', n', hfit, hlater, hnode', hcampaigns, hlog, hballots⟩ :=
        ih _ (by rw [hraft]; simp only; omega) hmoved.fit hn₁ (by rw [hraft]; exact hstate)
          (by rw [hraft]; exact hpeers) (by rw [hraft]; exact hterm) rfl
      rw [hraft] at hcampaigns hlog hballots
      refine ⟨c', n', hfit, hmoved.later.trans hlater, ?_, hcampaigns, hlog, hballots⟩
      rw [hnode', hnode, Function.update_idem]

/-- The vote that node `q` has for the candidate `r`. -/
def Backs (c : Cluster) (r : Raft) (q : String) : Prop :=
  ∃ m, c.node q = some m ∧ m.raft.isLogUpToDate r.lastLogIndex r.lastLogTerm = true

theorem Fit.poll (h : Fit w bound c) {granted : Set String} (hn : c.node i = some n)
    (hm : c.node p = some m) (hother : p ≠ i) (hterm : r.currentTerm ≤ bound)
    (hcampaigns : n.raft.Campaigns r.currentTerm granted) (hfresh : p ∉ granted)
    (hballot : { origin := i, msg := r.ballot p, dest := none } ∈ c.net)
    (hbehind : m.raft.currentTerm < r.currentTerm) :
    ∃ c' n' m', Fit w bound c' ∧ Later w c c' ∧
      c'.node = Function.update (Function.update c.node p (some m')) i (some n') ∧
      m'.raft.state = .follower ∧ m'.raft.currentTerm = r.currentTerm ∧
      n'.raft.Campaigns r.currentTerm {q | q ∈ granted ∨ q = p ∧ c.Backs r q} := by
  obtain ⟨s, hs⟩ := h.refines
  obtain ⟨f, reply, hstep, hmsgs, hfollower, hnow, hreal, hreplyTerm, hreject⟩ :=
    step_ballot ((r.ballot p).received p) (h.equipped hm).base (hs.node p m hm).drained
      rfl rfl hbehind
  have hnow' : f.currentTerm = r.currentTerm := hnow
  obtain ⟨c₁, cause, hmoved, hback⟩ :=
    h.request hballot rfl rfl rfl hn hm hstep (hnow'.trans_le hterm) hmsgs
  obtain ⟨m', lastApplied, hnode, hraft⟩ := hmoved.node
  have hn₁ : c₁.node i = some n := (hmoved.other (Ne.symm hother)).trans hn
  obtain ⟨s₁, hs₁⟩ := hmoved.fit.refines
  obtain ⟨l, hcount, hcampaigns'⟩ := hcampaigns.step ((r.ballot p).answered reply)
    (hs₁.node i n hn₁).tracks.indexed (hmoved.fit.equipped hn₁) rfl hreal hreplyTerm hfresh
  obtain ⟨c₂, hmoved'⟩ := hmoved.fit.response hback rfl rfl hn₁ hcount
    (hcampaigns'.1.trans_le hterm)
  obtain ⟨n', lastApplied', hnode', hraft'⟩ := hmoved'.node
  refine ⟨c₂, n', m', hmoved'.fit, hmoved.later.trans hmoved'.later,
    by rw [hnode', hnode]; rfl, by rw [hraft]; exact hfollower, by rw [hraft]; exact hnow', ?_⟩
  rw [hraft']
  refine ⟨hcampaigns'.1, hcampaigns'.2.imp_right fun hstands =>
    ⟨hstands.1, hstands.2.1, fun q hq => hstands.2.2 q (hq.imp_right fun hnew => ⟨hnew.1, ?_⟩)⟩⟩
  obtain ⟨rfl, m₀, hm₀, hgrants⟩ := hnew
  cases hm.symm.trans hm₀
  change reply.reject = false
  rw [hreject]
  change (!m.raft.isLogUpToDate r.lastLogIndex r.lastLogTerm) = false
  rw [hgrants]
  rfl

theorem Fit.canvass (ps : List String) (hnodup : ps.Nodup) (hself : i ∉ ps)
    (hterm : r.currentTerm ≤ bound) {granted : Set String} (h : Fit w bound c)
    (hn : c.node i = some n) (hcampaigns : n.raft.Campaigns r.currentTerm granted)
    (hasked : ∀ p ∈ ps, p ∉ granted ∧
      { origin := i, msg := r.ballot p, dest := none } ∈ c.net ∧
      ∃ m, c.node p = some m ∧ m.raft.currentTerm < r.currentTerm) :
    ∃ c' n', Fit w bound c' ∧ Later w c c' ∧ c'.node i = some n' ∧
      (∀ j, j ≠ i → j ∉ ps → c'.node j = c.node j) ∧
      (∀ p ∈ ps, ∃ m, c'.node p = some m ∧ m.raft.state = .follower ∧
        m.raft.currentTerm = r.currentTerm) ∧
      n'.raft.Campaigns r.currentTerm {q | q ∈ granted ∨ q ∈ ps ∧ c.Backs r q} := by
  induction ps generalizing c n granted with
  | nil =>
    refine ⟨c, n, h, .refl, hn, fun _ _ _ => rfl, fun p hp => (by cases hp), hcampaigns.1,
      hcampaigns.2.imp_right fun hstands => ⟨hstands.1, hstands.2.1, fun q hq => ?_⟩⟩
    exact hstands.2.2 q (hq.resolve_right fun hno => (by cases hno.1))
  | cons p rest ih =>
    obtain ⟨hp, hnodup⟩ := List.nodup_cons.mp hnodup
    obtain ⟨hpi, hself⟩ := not_or.mp (mt List.mem_cons.mpr hself)
    obtain ⟨hfresh, hballot, m, hm, hbehind⟩ := hasked p List.mem_cons_self
    obtain ⟨c₁, n₁, m₁, hfit, hlater, hnode, hfollower, hnow, hcampaigns₁⟩ :=
      h.poll hn hm (Ne.symm hpi) hterm hcampaigns hfresh hballot hbehind
    have hn₁ : c₁.node i = some n₁ := by rw [hnode, Function.update_self]
    have hm₁ : c₁.node p = some m₁ := by
      rw [hnode, Function.update_of_ne (Ne.symm hpi), Function.update_self]
    have hothers : ∀ j, j ≠ i → j ≠ p → c₁.node j = c.node j := fun j hji hjp => by
      rw [hnode, Function.update_of_ne hji, Function.update_of_ne hjp]
    have hrest : ∀ q ∈ rest, q ≠ i ∧ q ≠ p := fun q hq =>
      ⟨fun heq => hself (heq ▸ hq), fun heq => hp (heq ▸ hq)⟩
    obtain ⟨c₂, n₂, hfit₂, hlater₂, hn₂, hothers₂, hfollowers, hcampaigns₂⟩ :=
      ih hnodup hself hfit hn₁ hcampaigns₁ fun q hq => by
        obtain ⟨hfreshq, hballotq, hmq⟩ := hasked q (List.mem_cons_of_mem p hq)
        obtain ⟨hqi, hqp⟩ := hrest q hq
        refine ⟨fun hold => hold.elim hfreshq fun hnew => hqp hnew.1,
          hlater.extends.mem_net hballotq, ?_⟩
        rw [hothers q hqi hqp]
        exact hmq
    refine ⟨c₂, n₂, hfit₂, hlater.trans hlater₂, hn₂, fun j hji hj => ?_, fun q hq => ?_,
      hcampaigns₂.1, hcampaigns₂.2.imp_right fun hstands =>
        ⟨hstands.1, hstands.2.1, fun q hq => hstands.2.2 q ?_⟩⟩
    · obtain ⟨hjp, hjrest⟩ := not_or.mp (mt List.mem_cons.mpr hj)
      exact (hothers₂ j hji hjrest).trans (hothers j hji hjp)
    · rcases List.mem_cons.mp hq with rfl | hq
      · exact ⟨m₁, (hothers₂ q (Ne.symm hpi) hp).trans hm₁, hfollower, hnow⟩
      · exact hfollowers q hq
    · rcases hq with hold | ⟨hq, hbacks⟩
      · exact .inl (.inl hold)
      · rcases List.mem_cons.mp hq with rfl | hq
        · exact .inl (.inr ⟨rfl, hbacks⟩)
        · refine .inr ⟨hq, ?_⟩
          obtain ⟨hqi, hqp⟩ := hrest q hq
          obtain ⟨m', hm', hbacks⟩ := hbacks
          exact ⟨m', (hothers q hqi hqp).trans hm', hbacks⟩

/-- Every node is at the term of node `i`, which leads or stands for it, and follows there. -/
structure Rallied (c : Cluster) (i : String) (n : Node) : Prop where
  node : c.node i = some n
  others : ∀ j m, c.node j = some m → j ≠ i →
    m.raft.state = .follower ∧ m.raft.currentTerm = n.raft.currentTerm

theorem Fit.rally (h : Fit w bound c) (hmany : 1 < w.members.length) (hn : c.node i = some n)
    (hstate : n.raft.state ≠ .leader) (hterm : n.raft.currentTerm < bound)
    (hhighest : ∀ j m, c.node j = some m → m.raft.currentTerm ≤ n.raft.currentTerm) :
    ∃ c' n', Fit w bound c' ∧ Later w c c' ∧ Rallied c' i n' ∧
      n'.raft.currentTerm = n.raft.currentTerm + 1 ∧
      (n'.raft.state = .leader ∨ n'.raft.state = .candidate) ∧
      ((∀ j m, c.node j = some m → m.raft.recency ≤ n.raft.recency) →
        n'.raft.state = .leader) := by
  obtain ⟨s, hs⟩ := h.refines
  have hhosts := hs.node i n hn
  have hcard := hhosts.tracks.card (List.mem_toFinset.mpr hhosts.member)
  rw [List.toFinset_card_of_nodup h.static.nodup] at hcard
  obtain ⟨c₁, n₁, hfit, hlater, hnode, hcampaigns, hlog, hballots⟩ :=
    h.stand hn hstate (fun hnil => by rw [hnil] at hcard; simp at hcard; omega) hterm
  have hn₁ : c₁.node i = some n₁ := by rw [hnode, Function.update_self]
  have hnow := hcampaigns.1
  have hself : i ∉ n.raft.peers := fun hno => ((hhosts.tracks.peers i).mp hno).2 rfl
  rw [← hnow] at hcampaigns
  obtain ⟨c₂, n₂, hfit₂, hlater₂, hn₂, -, hfollowers, hcampaigns₂⟩ :=
    Fit.canvass n.raft.peers hhosts.tracks.nodup hself
      (hnow.trans_le (Nat.succ_le_of_lt hterm)) hfit hn₁ hcampaigns fun p hp => by
        obtain ⟨hmember, hother⟩ := (hhosts.tracks.peers p).mp hp
        refine ⟨hother, hballots p hp, ?_⟩
        obtain ⟨m, hm⟩ := h.populated (List.mem_toFinset.mp hmember)
        refine ⟨m, by rw [hnode, Function.update_of_ne hother, hm], ?_⟩
        rw [hnow]
        exact Nat.lt_succ_of_le (hhighest p m hm)
  have hterm₂ := hcampaigns₂.1
  obtain ⟨s₂, hs₂⟩ := hfit₂.refines
  refine ⟨c₂, n₂, hfit₂, hlater.trans hlater₂, ⟨hn₂, fun j m hm hj => ?_⟩, hterm₂.trans hnow,
    hcampaigns₂.2.imp_right And.left, fun hrecent => ?_⟩
  · have hmember := List.mem_toFinset.mpr (hs₂.node j m hm).member
    obtain ⟨m', hm', hfollower, hsame⟩ := hfollowers j ((hhosts.tracks.peers j).mpr ⟨hmember, hj⟩)
    cases hm.symm.trans hm'
    exact ⟨hfollower, hsame.trans hterm₂.symm⟩
  · have htracks₂ := (hs₂.node i n₂ hn₂).tracks
    refine hcampaigns₂.leads htracks₂.nodup htracks₂.self_not_mem fun q hq => ?_
    rw [htracks₂.id] at hq
    rcases hq with rfl | hq
    · exact .inl rfl
    · have hpeer := (htracks₂.peers q).mp hq
      obtain ⟨m, hm⟩ := h.populated (List.mem_toFinset.mp hpeer.1)
      refine .inr ⟨(hhosts.tracks.peers q).mpr hpeer, m, ?_, ?_⟩
      · rw [hnode, Function.update_of_ne hpeer.2, hm]
      · rw [isLogUpToDate_iff_recency]
        refine (hrecent q m hm).trans_eq ?_
        unfold recency lastLogTerm lastLogIndex
        rw [hlog]

theorem Fit.exists_foremost {α : Type} [LinearOrder α] (h : Fit w bound c)
    (hsome : w.members ≠ []) (f : Raft → α) :
    ∃ i n, c.node i = some n ∧ ∀ j m, c.node j = some m → f m.raft ≤ f n.raft := by
  obtain ⟨s, hs⟩ := h.refines
  obtain ⟨k, hk⟩ := List.exists_mem_of_ne_nil _ hsome
  obtain ⟨n₀, -⟩ := h.populated hk
  have hnode : ∀ j ∈ w.members.toFinset, c.node j = some ((c.node j).getD n₀) := by
    intro j hj
    obtain ⟨m, hm⟩ := h.populated (List.mem_toFinset.mp hj)
    rw [hm]
    rfl
  obtain ⟨i, hi, hmost⟩ := w.members.toFinset.exists_max_image
    (fun j => f ((c.node j).getD n₀).raft) ⟨k, List.mem_toFinset.mpr hk⟩
  refine ⟨i, _, hnode i hi, fun j m hm => ?_⟩
  have hle := hmost j (List.mem_toFinset.mpr (hs.node j m hm).member)
  rwa [hm] at hle

theorem Fit.elect (h : Fit w bound c) (hmany : 1 < w.members.length)
    (hroom : ∀ j m, c.node j = some m → m.raft.currentTerm + 2 ≤ bound) :
    ∃ c' i n', Fit w bound c' ∧ Later w c c' ∧ c'.node i = some n' ∧ n'.raft.state = .leader ∧
      ∀ j m, c'.node j = some m → m.raft.currentTerm ≤ n'.raft.currentTerm := by
  have hsome : w.members ≠ [] := List.ne_nil_of_length_pos (by omega)
  obtain ⟨i, n, hn, hhighest⟩ := h.exists_foremost hsome Raft.currentTerm
  by_cases hstate : n.raft.state = .leader
  · exact ⟨c, i, n, h, .refl, hn, hstate, hhighest⟩
  have hterm := hroom i n hn
  obtain ⟨c₁, n₁, hfit, hlater, hrallied, hnow, hrole, -⟩ :=
    h.rally hmany hn hstate (by omega) hhighest
  have hlevel : ∀ j m, c₁.node j = some m → m.raft.currentTerm = n₁.raft.currentTerm := by
    intro j m hm
    by_cases hj : j = i
    · subst hj
      cases hrallied.node.symm.trans hm
      rfl
    · exact (hrallied.others j m hm hj).2
  rcases hrole with hlead | hstands
  · exact ⟨c₁, i, n₁, hfit, hlater, hrallied.node, hlead, fun j m hm => (hlevel j m hm).le⟩
  -- Nobody leads now, so the node with the most recent log may stand.
  · obtain ⟨k, m, hm, hrecent⟩ := hfit.exists_foremost hsome recency
    have hidle : m.raft.state ≠ .leader := by
      by_cases hk : k = i
      · subst hk
        cases hrallied.node.symm.trans hm
        simp [hstands]
      · simp [(hrallied.others k m hm hk).1]
    have hmterm := hlevel k m hm
    obtain ⟨c₂, n₂, hfit₂, hlater₂, hrallied₂, hnow₂, -, hwins⟩ :=
      hfit.rally hmany hm hidle (by omega) fun j m' hm' =>
        ((hlevel j m' hm').trans hmterm.symm).le
    refine ⟨c₂, k, n₂, hfit₂, hlater.trans hlater₂, hrallied₂.node, hwins hrecent, ?_⟩
    intro j m' hm'
    by_cases hj : j = k
    · subst hj
      cases hrallied₂.node.symm.trans hm'
      exact le_rfl
    · exact (hrallied₂.others j m' hm' hj).2.le

end Cluster
end Phalanx
