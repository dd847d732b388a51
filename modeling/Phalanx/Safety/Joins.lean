import Phalanx.Raft.Operations
import Phalanx.Raft.Timers
import Phalanx.Safety.Votes

/-! Elections among nodes that learn of each other by discovery. `AddPeer` changes the
quorum of one node at once, so two nodes may count their majorities over different
sets. Two leaders of one term need quorums without a common member; where the sets that
they know of are too small for that, there is one leader at most. -/
namespace Phalanx

open Consensus Go Raft

namespace Raft

/-- The nodes that an instance counts its majority over. -/
def known (r : Raft) : Finset String := insert r.id r.peers.toFinset

/-- No two quorums of the two instances are disjoint. -/
def Overlaps (r r' : Raft) : Prop :=
  (r.known ∪ r'.known).card < r.quorumSize + r'.quorumSize

instance (r r' : Raft) : Decidable (r.Overlaps r') := inferInstanceAs (Decidable (_ < _))

end Raft

namespace Cluster

/-- The term that a handler may elect the node for: the next one when its clock ticks, and its
own when it stands and is handed an answer to its request for votes. -/
def electionTerm (c : Cluster) (r : Raft) : Stimulus → Option Nat
  | .tick => if r.state = .leader then none else some (succ64 r.currentTerm)
  | .packet k =>
    if r.state = .candidate ∧ c.net[k]?.any (fun pk => pk.msg.type = .requestVoteResp) then
      some r.currentTerm
    else none
  | .propose _ | .join _ _ => none

/-- Nothing crashes and every request goes to the peer it is meant for. A node that may be
elected in a term that has a leader overlaps with that leader. -/
def Overlapping (w : World) (c : Cluster) : Event → Prop
  | .handle i stimulus => ∀ n ∈ c.node i, ∀ term ∈ c.electionTerm n.raft stimulus,
      ∀ seen ∈ c.hist, seen.1 ≠ i → seen.2.state = .leader → seen.2.currentTerm = term →
        n.raft.Overlaps seen.2
  | .crash _ _ => False
  | .dial k => ∀ pk ∈ c.net[k]?, ∀ n ∈ c.node pk.origin,
      w.env.dial pk.origin (n.resolvePeerAddr pk.msg.recipient) = pk.msg.recipient
  | .answer _ _ _ => True

instance (w : World) (c : Cluster) : (e : Event) → Decidable (c.Overlapping w e)
  | .handle i _ => inferInstanceAs (Decidable (∀ n ∈ c.node i, _))
  | .crash _ _ => inferInstanceAs (Decidable False)
  | .dial k => inferInstanceAs (Decidable (∀ pk ∈ c.net[k]?, _))
  | .answer _ _ _ => inferInstanceAs (Decidable True)

variable {w : World} {c c' : Cluster} {i j : String} {n n' : Node} {stimulus : Stimulus}
variable {input : Input} {via : Option (Nat × Packet)} {ok : Cluster → Event → Prop}

def direct : Invariant where
  node := fun _ _ _ => True
  packet := fun _ pk => pk.msg.isRequest = true → ∀ d, pk.dest = some d → d = pk.msg.recipient
  seen := fun _ _ _ => True
  node_mono := fun _ h => h
  packet_mono := fun _ h => h
  seen_mono := fun _ h => h

theorem direct_kept (hok : ∀ c e, ok c e → c.Overlapping w e) : direct.Kept w ok where
  boot := fun _ _ _ _ _ => ⟨trivial, trivial⟩
  handle := by
    intro c i stimulus n input via n' _ _ _ _ _ _
    refine ⟨trivial, trivial, fun pk hpk hrequest d hd => ?_⟩
    rcases mem_emitted hpk with ⟨m, -, -, rfl⟩ | ⟨k, req, m, -, -, -, -, rfl⟩
    · cases hd
    · rw [Message.answered_isRequest] at hrequest
      cases hrequest
  interrupt := fun _ _ _ _ _ _ _ _ _ _ _ _ _ => trivial
  crash := fun _ _ _ _ _ _ _ _ hcrash _ _ _ _ => (hok _ _ hcrash).elim
  dial := by
    intro c k pk n dest _ _ hdial hk hn _ hdest _ d hd
    rw [← Option.some.inj hd, hdest]
    exact hok _ _ hdial pk hk n hn
  answer := fun _ _ _ _ _ _ _ _ _ _ _ => trivial

theorem asked_kept (hok : ∀ c e, ok c e → c.Overlapping w e) :
    Keeps w ok fun _ _ sent n => ∀ pk ∈ sent, pk.msg.isRequest = true →
      pk.msg.recipient ∈ n.raft.peers where
  boot := fun _ _ _ _ _ _ _ hpk => by cases hpk
  handle := by
    intro c i stimulus n input via n' hreach _ hn hinput hact h pk hpk hrequest
    obtain ⟨-, -, -, hpeers, hsends⟩ := acted_sends hreach.orderly hn hinput hact
    rcases List.mem_append.mp hpk with hold | hnew
    · exact hpeers _ (h pk hold hrequest)
    · rcases mem_emitted hnew with ⟨m, hm, -, rfl⟩ | ⟨k, req, m, -, -, -, -, rfl⟩
      · rcases (hsends m hm).kind with ⟨-, hmem⟩ | ⟨hno, -⟩
        · exact hmem
        · rw [hrequest] at hno
          cases hno
      · rw [Message.answered_isRequest] at hrequest
        cases hrequest
  crash := fun _ _ _ _ _ hcrash => (hok _ _ hcrash).elim
  interrupt := fun _ _ _ _ _ _ _ _ _ hcrash => (hok _ _ hcrash).elim
  dial := by
    intro c k pk n dest _ _ hk _ _ h pk' hpk' hrequest
    rcases List.mem_append.mp hpk' with hold | hnew
    · exact h pk' hold hrequest
    · rw [List.mem_singleton.mp hnew] at hrequest ⊢
      exact h pk (mem_sent.mpr ⟨List.mem_of_getElem? hk, rfl⟩) hrequest
  answer := by
    intro c i call success n n' _ _ hanswer h
    obtain ⟨calls, rfl⟩ := Node.answer_frame hanswer
    exact h

/-- A quorum of what a leader knew when it was elected, each of which supports it. -/
def ElectedBy (c : Cluster) (i : String) (r : Raft) (voters : Finset String) : Prop :=
  voters ⊆ r.known ∧ r.quorumSize ≤ voters.card ∧
    ∀ q ∈ voters, q = i ∨ ∃ pk ∈ c.net, pk.origin = q ∧ pk.Grants i r.currentTerm

theorem ElectedBy.mono (hextends : c.Extends c') {r : Raft} {voters : Finset String}
    (h : c.ElectedBy i r voters) : c'.ElectedBy i r voters := by
  refine ⟨h.1, h.2.1, fun q hq => (h.2.2 q hq).imp_right ?_⟩
  rintro ⟨pk, hpk, hrest⟩
  exact ⟨pk, hextends.mem_net hpk, hrest⟩

theorem acted_elected (hok : ∀ c e, ok c e → c.Overlapping w e) (hreach : Reach w ok c)
    (hn : c.node i = some n) (hinput : c.input i stimulus = some (input, via))
    (hact : n.act w.env input = some n') (hold : n.raft.state ≠ .leader)
    (hlead : n'.raft.state = .leader) : ∃ voters, c.ElectedBy i n'.raft voters := by
  have horderly := hreach.orderly
  have hhoused := horderly.node i n hn
  have hbacked := acted_backed horderly (((counted_kept w ok).reach hreach).node i n hn) hinput
    hact (by simp [hlead])
  obtain ⟨-, hid, -⟩ := acted_sends horderly hn hinput hact
  obtain ⟨hquorum, hpeers⟩ := acted_won horderly hn hinput hact hold hlead
  have hasked := ((asked_kept hok).reach hreach i).node hn
  have hdirect := (direct_kept hok).reach hreach
  have hvote : ∀ q ∈ n'.raft.votes.trueKeys, q = i ∨ q ∈ n.raft.peers ∧
      ∃ pk ∈ c.net, pk.origin = q ∧ pk.Grants i n'.raft.currentTerm := by
    intro q hq
    rcases hbacked q hq with hself | hgranted
    · exact .inl (hself.trans hid)
    · right
      obtain ⟨pk, hpk, hgrants, req, hreq, htype, hsender, -, hrecipient, hdest⟩ :=
        granted_request horderly hgranted
      have hrequest := isRequest_of_type (m := req.msg) (.inl htype)
      have horigin := (horderly.packet req hreq).request hrequest
      refine ⟨?_, pk, hpk, ?_, hgrants⟩
      · rw [← hrecipient]
        exact hasked req (mem_sent.mpr ⟨hreq, horigin.trans hsender⟩) hrequest
      · rw [hdirect.packet req hreq hrequest _ hdest, hrecipient]
  refine ⟨n'.raft.votes.trueKeys, fun q hq => ?_, of_decide_eq_true hquorum, fun q hq => ?_⟩
  · rw [known, Finset.mem_insert, List.mem_toFinset, hid, hpeers]
    exact (hvote q hq).imp_right And.left
  · exact (hvote q hq).imp_right And.right

theorem acted_office (horderly : (orderly w).Holds c)
    (hinput : c.input i stimulus = some (input, via)) (hact : n.act w.env input = some n')
    (htick : input ≠ .tick) (hlead : n'.raft.state = .leader) :
    n'.raft.currentTerm = n.raft.currentTerm := by
  rcases acted_cases horderly hinput hact with ⟨r₁, lastApplied, hmoves, hraft⟩ | ⟨peers, hraft⟩
  · have hoffice := hmoves.keeps_office (fun t ht => htick ht.1)
    rw [hraft] at hlead ⊢
    exact (hoffice (by simp only at hlead; simp [hlead])).2
  · rw [hraft]

theorem acted_leader_term (horderly : (orderly w).Holds c)
    (hinput : c.input i stimulus = some (input, via)) (hact : n.act w.env input = some n')
    (hold : n.raft.state = .leader) (hlead : n'.raft.state = .leader) :
    n'.raft.currentTerm = n.raft.currentTerm := by
  by_cases htick : input = .tick
  · subst htick
    obtain ⟨r, hr, hact⟩ := Option.bind_eq_some_iff.mp hact
    cases hact
    rw [(Node.applyCommitted_frame _ _).1, applicableEntries_eq]
    exact (tick_paced hold hr).2.1
  · exact acted_office horderly hinput hact htick hlead

theorem acted_by_response (hact : n.act w.env input = some n') (htick : input ≠ .tick)
    (hold : n.raft.state ≠ .leader) (hlead : n'.raft.state = .leader) :
    ∃ m, input = .response m ∧ m.type = .requestVoteResp ∧ n.raft.state = .candidate := by
  obtain ⟨r, lastApplied, hperforms, hraft, -⟩ := Node.act_performs hact
  rw [hraft] at hlead
  change r.state = .leader at hlead
  cases hperforms with
  | tick => exact absurd rfl htick
  | propose h =>
    rcases propose_cases h with ⟨-, rfl⟩ | ⟨hoffice, -⟩
    · exact absurd hlead hold
    · exact absurd hoffice hold
  | @step _ m _ hm h =>
    obtain ⟨htype, hstate⟩ : m.type = .requestVoteResp ∧ n.raft.state = .candidate := by
      rcases step_to_leader h hlead with ⟨hno, -⟩ | ⟨hno, -⟩ | ⟨helected, -⟩
      · exact absurd hno hold
      · exact absurd hno hold
      · exact helected
    cases input with
    | request msg =>
      cases hm
      unfold Message.received at htype
      split at htype <;> cases htype
    | response msg =>
      cases hm
      exact ⟨_, rfl, htype, hstate⟩
    | tick | propose data | join nodeID raftAddr => cases hm
  | join =>
    rw [(addPeer_frame n.raft _).1] at hlead
    exact absurd hlead hold

theorem acted_election_term (horderly : (orderly w).Holds c)
    (hinput : c.input i stimulus = some (input, via)) (hact : n.act w.env input = some n')
    (hold : n.raft.state ≠ .leader) (hlead : n'.raft.state = .leader) :
    c.electionTerm n.raft stimulus = some n'.raft.currentTerm := by
  by_cases htick : input = .tick
  · have hstimulus : stimulus = .tick := by
      by_contra hno
      exact input_ne_tick hno hinput htick
    subst htick hstimulus
    obtain ⟨r, hr, hact⟩ := Option.bind_eq_some_iff.mp hact
    cases hact
    rw [(Node.applyCommitted_frame _ _).1, applicableEntries_eq] at hlead ⊢
    rw [electionTerm, if_neg hold]
    exact congrArg some (tick_crowned hold hr hlead).2.2.symm
  · obtain ⟨m, rfl, htype, hstate⟩ := acted_by_response hact htick hold hlead
    rw [acted_office horderly hinput hact htick hlead]
    rcases input_cases hinput with ⟨-, -, hno⟩ | ⟨data, -, -, hno⟩ | ⟨a, b, -, -, hno⟩ |
      ⟨k, pk, rfl, hk, -, -, hmsg⟩
    · cases hno
    · cases hno
    · cases hno
    · split at hmsg
      · cases hmsg
      · cases hmsg
        simp [electionTerm, hstate, hk, htype]

def elected : Invariant where
  node := fun _ _ _ => True
  packet := fun _ _ => True
  seen := fun c i r => r.state = .leader → ∃ r₀ voters, (i, r₀) ∈ c.hist ∧
    r₀.state = .leader ∧ r₀.currentTerm = r.currentTerm ∧ c.ElectedBy i r₀ voters
  node_mono := fun _ h => h
  packet_mono := fun _ h => h
  seen_mono := by
    intro c c' i r hextends h hlead
    obtain ⟨r₀, voters, hr₀, hlead₀, hterm, hvoters⟩ := h hlead
    exact ⟨r₀, voters, hextends.mem_hist hr₀, hlead₀, hterm, hvoters.mono hextends⟩

theorem elected_kept (hok : ∀ c e, ok c e → c.Overlapping w e) : elected.Kept w ok where
  boot := by
    intro c i n _ hboot
    obtain ⟨peerAddrs, rfl⟩ := World.boot_eq hboot
    exact ⟨trivial, fun hno => by cases hno⟩
  handle := by
    intro c i stimulus n input via n' hreach h _ hn hinput hact
    refine ⟨trivial, fun hlead => ?_, fun _ _ => trivial⟩
    have hextends := extends_completed c i n' via
    change n'.raft.state = .leader at hlead
    by_cases hold : n.raft.state = .leader
    · have hterm := acted_leader_term hreach.orderly hinput hact hold hlead
      obtain ⟨r₀, voters, hr₀, hlead₀, hterm₀, hvoters⟩ :=
        h.seen i n.raft (hreach.orderly.node i n hn).now hold
      exact ⟨r₀, voters, hextends.mem_hist hr₀, hlead₀, hterm₀.trans hterm.symm,
        hvoters.mono hextends⟩
    · obtain ⟨voters, hvoters⟩ := acted_elected hok hreach hn hinput hact hold hlead
      have hmono := hvoters.mono hextends
      exact ⟨{ n'.raft with msgs := [] }, voters,
        List.mem_append_right _ (List.mem_singleton.mpr rfl), hlead, rfl, hmono⟩
  interrupt := fun _ _ _ _ _ _ _ _ _ hcrash => (hok _ _ hcrash).elim
  crash := fun _ _ _ _ _ _ _ _ hcrash => (hok _ _ hcrash).elim
  dial := fun _ _ _ _ _ _ _ _ _ _ _ _ => trivial
  answer := fun _ _ _ _ _ _ _ _ _ _ _ => trivial

theorem ElectedBy.supports {r : Raft} {voters : Finset String} (h : c.ElectedBy i r voters)
    (hseen : (i, r) ∈ c.hist) (hlead : r.state = .leader) {q : String} (hq : q ∈ voters) :
    c.SupportsIn q r.currentTerm i := by
  rcases h.2.2 q hq with rfl | ⟨pk, hpk, horigin, hgrants⟩
  · exact .inl ⟨rfl, r, mem_past.mpr hseen, by simp [hlead], rfl⟩
  · exact .inr ⟨pk, mem_sent.mpr ⟨hpk, horigin⟩, hgrants⟩

theorem leader_unique (hnamed : ∀ i ∈ w.members, i ≠ None)
    (hok : ∀ c e, ok c e → c.Overlapping w e) (hbelow : ∀ c e, ok c e → c.TermsBelow)
    (hreach : Reach w ok c) {r r' : Raft} {voters voters' : Finset String}
    (hi : (i, r) ∈ c.hist) (hj : (j, r') ∈ c.hist) (hlead : r.state = .leader)
    (hlead' : r'.state = .leader) (hterm : r.currentTerm = r'.currentTerm)
    (hvoters : c.ElectedBy i r voters) (hvoters' : c.ElectedBy j r' voters')
    (hoverlaps : r.Overlaps r') : i = j := by
  have hcard : (r.known ∪ r'.known).card < voters.card + voters'.card :=
    hoverlaps.trans_le (Nat.add_le_add hvoters.2.1 hvoters'.2.1)
  obtain ⟨q, hq, hq'⟩ := exists_mem_of_card_lt
    (hvoters.1.trans Finset.subset_union_left) (hvoters'.1.trans Finset.subset_union_right) hcard
  have hrecalled : ∀ c e, ok c e → c.Recalled w e := by
    intro c e he
    cases e with
    | crash => exact (hok _ _ he).elim
    | _ => trivial
  have hsupport := hvoters.supports hi hlead hq
  have hsupport' := hvoters'.supports hj hlead' hq'
  rw [← hterm] at hsupport'
  exact supports_unique (votes_kept hnamed hrecalled hbelow) hreach hsupport hsupport'

def OneLeader (c : Cluster) : Prop :=
  ∀ i r j r', (i, r) ∈ c.hist → (j, r') ∈ c.hist → r.state = .leader → r'.state = .leader →
    r.currentTerm = r'.currentTerm → i = j

theorem acted_unique (hnamed : ∀ i ∈ w.members, i ≠ None)
    (hok : ∀ c e, ok c e → c.Overlapping w e) (hbelow : ∀ c e, ok c e → c.TermsBelow)
    (hreach : Reach w ok c) (hreach' : Reach w ok (c.completed i n' via))
    (he : ok c (.handle i stimulus)) (hone : c.OneLeader) (hn : c.node i = some n)
    (hinput : c.input i stimulus = some (input, via)) (hact : n.act w.env input = some n')
    {r : Raft} (hj : (j, r) ∈ c.hist) (hlead : n'.raft.state = .leader)
    (hlead' : r.state = .leader) (hterm : n'.raft.currentTerm = r.currentTerm) : i = j := by
  have horderly := hreach.orderly
  by_cases hold : n.raft.state = .leader
  · have hsame := acted_leader_term horderly hinput hact hold hlead
    exact hone i n.raft j r (horderly.node i n hn).now hj hold hlead' (hsame.symm.trans hterm)
  · by_contra hne
    have hextends := extends_completed c i n' via
    obtain ⟨voters, hvoters⟩ := acted_elected hok hreach hn hinput hact hold hlead
    obtain ⟨r₀, voters₀, hr₀, hlead₀, hterm₀, hvoters₀⟩ :=
      ((elected_kept hok).reach hreach).seen j r hj hlead'
    have hwhen := acted_election_term horderly hinput hact hold hlead
    have hoverlaps := hok _ _ he n hn _ hwhen (j, r₀) hr₀ (Ne.symm hne) hlead₀
      (hterm₀.trans hterm.symm)
    have hsame : { n'.raft with msgs := [] }.Overlaps r₀ := by
      obtain ⟨-, hid, -⟩ := acted_sends horderly hn hinput hact
      have hpeers := (acted_won horderly hn hinput hact hold hlead).2
      unfold Overlaps known quorumSize clusterSize at hoverlaps ⊢
      simp only
      rw [hid, hpeers, ← (horderly.node i n hn).raftId]
      exact hoverlaps
    have hseen : (i, { n'.raft with msgs := [] }) ∈ (c.completed i n' via).hist :=
      List.mem_append_right _ (List.mem_singleton.mpr rfl)
    exact hne (leader_unique hnamed hok hbelow hreach' hseen (hextends.mem_hist hr₀) hlead hlead₀
      (hterm.trans hterm₀.symm) (hvoters.mono hextends) (hvoters₀.mono hextends) hsame)

theorem oneLeader_kept (hnamed : ∀ i ∈ w.members, i ≠ None)
    (hok : ∀ c e, ok c e → c.Overlapping w e) (hbelow : ∀ c e, ok c e → c.TermsBelow)
    (hreach : Reach w ok c) : c.OneLeader := by
  induction hreach with
  | start h =>
    intro i r j r' hi _ hlead
    have hidle := ((start_past h).2 i).1 r (mem_past.mpr hi)
    rw [hidle] at hlead
    cases hlead
  | @step c c' e hreach he hstep hone =>
    have hreach' := hreach.step he hstep
    cases e with
    | handle q stimulus =>
      obtain ⟨n, input, via, hn, hinput, ⟨-, rfl⟩ | ⟨n', hact, rfl⟩⟩ := step_handle hstep
      · exact hone
      · intro i r j r' hi hj hlead hlead' hterm
        rcases List.mem_append.mp hi with hi | hi <;> rcases List.mem_append.mp hj with hj | hj
        · exact hone i r j r' hi hj hlead hlead' hterm
        · cases List.mem_singleton.mp hj
          exact (acted_unique hnamed hok hbelow hreach hreach' he hone hn hinput hact hi hlead'
            hlead hterm.symm).symm
        · cases List.mem_singleton.mp hi
          exact acted_unique hnamed hok hbelow hreach hreach' he hone hn hinput hact hj hlead
            hlead' hterm
        · cases List.mem_singleton.mp hi
          cases List.mem_singleton.mp hj
          rfl
    | crash => exact (hok _ _ he).elim
    | dial k =>
      obtain ⟨pk, n, dest, -, -, -, -, rfl⟩ := step_dial hstep
      exact hone
    | answer q call success =>
      obtain ⟨n, n', -, -, rfl⟩ := step_answer hstep
      exact hone

end Cluster

variable {w : World} {c : Cluster} {i j : String} {r r' : Raft}

theorem election_safety_joins (hnamed : ∀ i ∈ w.members, i ≠ None)
    (hreach : Cluster.Reach w (fun c e => c.Overlapping w e) c) (hbelow : c.TermsBelow)
    (hi : (i, r) ∈ c.hist) (hj : (j, r') ∈ c.hist) (hlead : r.state = .leader)
    (hlead' : r'.state = .leader) (hterm : r.currentTerm = r'.currentTerm) : i = j := by
  have hone : c.OneLeader :=
    Cluster.oneLeader_kept hnamed (fun _ _ h => h.1) (fun _ _ h => h.2)
      (TermsBelow.reach hreach hbelow)
  exact hone i r j r' hi hj hlead hlead' hterm

/-- A and B hear of each other, and A is elected with the vote of B. -/
theorem election_safety_joins_pair :
    ∃ c, Cluster.Reach (strangers ["a", "b"] 1 1)
        (fun c e => c.Overlapping (strangers ["a", "b"] 1 1) e) c ∧
      (∃ seen ∈ c.hist, seen.1 = "a" ∧ seen.2.state = .leader ∧ seen.2.currentTerm = 1) ∧
      ∀ seen ∈ c.hist, seen.2.state = .leader → seen.2.currentTerm = 1 → seen.1 = "a" := by
  obtain ⟨c, hreach, hbelow, ⟨i, r⟩, hi, rfl, hlead, hterm⟩ :
      ∃ c, Cluster.Reach (strangers ["a", "b"] 1 1)
          (fun c e => c.Overlapping (strangers ["a", "b"] 1 1) e) c ∧
        c.TermsBelow ∧ ∃ seen ∈ c.hist, seen.1 = "a" ∧ seen.2.state = .leader ∧
        seen.2.currentTerm = 1 :=
    Reachable.of_any
      [.handle "a" (.join "b" "b"), .handle "b" (.join "a" "a"), .handle "a" .tick, .dial 0,
        .handle "b" (.packet 1), .handle "a" (.packet 2)] rfl
  have hnamed : ∀ i ∈ (strangers ["a", "b"] 1 1).members, i ≠ None := by decide
  refine ⟨c, hreach, ⟨_, hi, rfl, hlead, hterm⟩, fun seen hseen hlead' hterm' => ?_⟩
  exact election_safety_joins hnamed hreach hbelow hseen hi hlead' hlead
    (hterm'.trans hterm.symm)

/-- Two nodes that know nobody elect themselves. -/
theorem two_leaders_of_one_term :
    ∃ c, Cluster.Reach (strangers ["a", "b"] 1 1) (fun _ e => e.crashless = true) c ∧
      c.TermsBelow ∧ ∃ seen ∈ c.hist, ∃ other ∈ c.hist, seen.1 ≠ other.1 ∧
        seen.2.state = .leader ∧ other.2.state = .leader ∧
        seen.2.currentTerm = other.2.currentTerm :=
  Reachable.of_any [.handle "a" .tick, .handle "b" .tick] rfl

end Phalanx
