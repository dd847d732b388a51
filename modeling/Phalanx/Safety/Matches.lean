import Phalanx.Raft.Timers
import Phalanx.Safety.Acks

/-! The match indices of a leader, against the order in which replies come back. A reply is
stored whatever was stored before it, so one that was overtaken takes the index back. In the
order in which a peer sent them the replies of a term never do: without crashes a peer keeps
what it has acknowledged as long as the term lasts. -/
namespace Phalanx

open Consensus Go Raft

variable {w : World} {c c' : Cluster} {s : Protocol} {i : String} {n n' : Node}

theorem Node.act_matched {env : Env} {input : Input} (hlead : n.raft.state = .leader)
    (hact : n.act env input = some n') (hlead' : n'.raft.state = .leader) {p : String}
    (hp : p ≠ n.raft.id) :
    n'.raft.matchIndex.read p = n.raft.matchIndex.read p ∨
      ∃ msg, input.stepped n.id = some msg ∧ n.raft.counts msg = true ∧ msg.sender = p ∧
        n'.raft.matchIndex.read p = msg.index := by
  obtain ⟨r, lastApplied, hperforms, hraft, -⟩ := Node.act_performs hact
  rw [hraft] at hlead' ⊢
  change r.state = .leader at hlead'
  change r.matchIndex.read p = _ ∨ ∃ msg, _ ∧ _ ∧ _ ∧ r.matchIndex.read p = _
  cases hperforms with
  | tick htick =>
    rcases tick_to_leader htick hlead' with
      ⟨-, heartbeatElapsed, heartbeatAcked, msgs, rfl⟩ | ⟨hno, -⟩
    · exact .inl rfl
    · exact absurd hlead hno
  | propose hpropose =>
    obtain ⟨matchIndex, msgs, hmatch, rfl⟩ := propose_leader hlead hpropose
    exact .inl ((hmatch p).resolve_right fun hself => hp hself.1)
  | @step _ msg _ hm hstep =>
    rcases step_to_leader hstep hlead' with ⟨-, htype, hresp⟩ |
      ⟨-, votedFor, electionElapsed, msgs, rfl⟩ | ⟨⟨-, hno⟩, -⟩
    · rcases handleAppendEntriesResp_cases hresp with ⟨rfl, -⟩ | ⟨-, -, -, -, -, -, rfl⟩ |
        ⟨-, hterm, hreject, matchIndex, nextIndex, hwrite, rfl⟩
      · exact .inl rfl
      · exact .inl rfl
      · rw [maybeAdvanceCommit_frame]
        change matchIndex.read p = _ ∨ ∃ msg, _ ∧ _ ∧ _ ∧ matchIndex.read p = _
        rcases hwrite with ⟨rfl, -⟩ | ⟨-, hwrite, -⟩
        · exact .inl rfl
        · rw [GoMap.read_write hwrite]
          split
          next heq =>
            exact .inr ⟨msg, hm, decide_eq_true ⟨hlead, htype, hterm, hreject⟩, heq.symm, rfl⟩
          next => exact .inl rfl
    · exact .inl rfl
    · cases hlead.symm.trans hno
  | @join nodeID =>
    rw [(addPeer_frame n.raft nodeID).1]
    exact .inl rfl

theorem Refines.keeps_acked (h : Refines (fun _ _ => False) w c s) (hn : c.node i = some n)
    {index : Nat} (hack : ⟨i, n.raft.currentTerm, index⟩ ∈ s.acks) :
    index ≤ n.raft.log.length := by
  have hloss : NoLoss (fun (_ : Protocol) (_ : String) => False) := fun _ _ hno => hno.elim
  have hkept := h.safe.kept hloss
  have htracks := (h.node i n hn).tracks
  have hindex := hkept.ackIndex _ hack
  rcases hkept.peerKept _ hack index le_rfl with hpre | ⟨t, hlater, hheard, -⟩
  · have hlen := hpre.length_le
    rw [htracks.log, List.length_take, Nat.min_eq_left hindex] at hlen
    exact hlen
  · -- it would have had to hear a leader of a later term
    unfold Peer.heard at hheard
    rw [htracks.term] at hheard
    simp only at hlater
    omega

theorem Cluster.Reach.acks_ordered (hstatic : Static w)
    (hreach : Cluster.Reach w (fun _ e => e.steady = true) c) (hbelow : c.TermsBelow)
    {k k' : Nat} {pk pk' : Packet} (hk : c.net[k]? = some pk) (hk' : c.net[k']? = some pk')
    (hle : k' ≤ k) (htype : pk.msg.type = .appendEntriesResp) (hreject : pk.msg.reject = false)
    (htype' : pk'.msg.type = .appendEntriesResp) (hreject' : pk'.msg.reject = false)
    (hsender : pk'.msg.sender = pk.msg.sender) (hterm : pk'.msg.term = pk.msg.term) :
    pk'.msg.index ≤ pk.msg.index := by
  by_cases hmany : 1 < w.members.length
  · have hjoinless : ∀ (_ : Cluster) (e : Event), e.steady = true → e.joinless = true :=
      fun _ _ h => (Bool.and_eq_true_iff.mp h).1
    obtain ⟨m, ⟨c₁, c₂, hreach₁, hemits, hleads⟩, hlength, hcurrent, -⟩ :=
      hreach.ack_sent hstatic hmany hjoinless hbelow hk htype hreject
    obtain ⟨⟨stimulus, hoke, hstep⟩, -, hpacket, hnode⟩ := hemits
    have hlater := hleads.extends
    obtain ⟨s, hs⟩ := refines_of_steady hstatic (fun _ _ h => h) (hreach₁.step hoke hstep)
      fun seen hseen => hbelow seen (hlater.mem_hist hseen)
    -- the other packet was there when this one left
    have hearlier : c₂.net[k']? = some pk' := by
      obtain ⟨new, hnew⟩ := hlater.net
      have hlt : k' < c₂.net.length := hle.trans_lt (List.getElem?_eq_some_iff.mp hpacket).1
      rwa [← hnew, List.getElem?_append_left hlt] at hk'
    have htransit := hs.net pk (List.mem_of_getElem? hpacket)
    rcases Nat.eq_zero_or_pos pk'.msg.index with hzero | hpos
    · omega
    · obtain ⟨-, hgenuine⟩ := (hs.net pk' (List.mem_of_getElem? hearlier)).genuine
      rw [htype'] at hgenuine
      have hack := hgenuine hreject' hpos
      rw [hsender, hterm, ← htransit.origin, ← hcurrent] at hack
      rw [← hlength]
      exact hs.keeps_acked hnode hack
  · have hlonely := (Cluster.lonely_kept hstatic (Nat.le_of_not_lt hmany)
      (fun _ _ h => (Bool.and_eq_true_iff.mp h).1)).reach hreach
    exact (hlonely.packet pk (List.mem_of_getElem? hk)).elim

theorem Cluster.step_node {e : Event} (hsteady : e.crashless = true)
    (hstep : c.step w e = some c') (hn' : c'.node i = some n') :
    (∃ n, c.node i = some n ∧ n'.raft = n.raft) ∨
      ∃ stimulus n input via n₁, e = .handle i stimulus ∧ c.node i = some n ∧
        c.input i stimulus = some (input, via) ∧ n.act w.env input = some n₁ ∧
        n'.raft = { n₁.raft with msgs := [] } := by
  cases e with
  | handle j stimulus =>
    obtain ⟨n, input, via, hn, hinput, ⟨-, rfl⟩ | ⟨n₁, hact, rfl⟩⟩ := step_handle hstep
    · exact .inl ⟨n', hn', rfl⟩
    · by_cases hj : i = j
      · subst hj
        have hself : (c.completed i n₁ via).node i = some (n₁.release true).1 :=
          Function.update_self ..
        cases hself.symm.trans hn'
        exact .inr ⟨stimulus, n, input, via, n₁, rfl, hn, hinput, hact, rfl⟩
      · have hother : (c.completed j n₁ via).node i = c.node i := Function.update_of_ne hj ..
        exact .inl ⟨n', hother ▸ hn', rfl⟩
  | crash j during => cases hsteady
  | dial k =>
    obtain ⟨pk, n, dest, -, -, -, -, rfl⟩ := step_dial hstep
    exact .inl ⟨n', hn', rfl⟩
  | answer j call success =>
    obtain ⟨m, m', hm, hanswer, rfl⟩ := step_answer hstep
    obtain ⟨calls, rfl⟩ := Node.answer_frame hanswer
    by_cases hj : i = j
    · subst hj
      simp only [Function.update_self] at hn'
      cases hn'
      exact .inl ⟨m, hm, rfl⟩
    · simp only [Function.update_of_ne hj] at hn'
      exact .inl ⟨n', hn', rfl⟩

/-- A run with the packets that were stepped in it, each with the node that did. -/
structure Deliveries where
  cluster : Cluster
  stepped : List (String × Nat) := []

namespace Deliveries

variable {t t' : Deliveries}

def step (w : World) (t : Deliveries) (e : Event) : Option Deliveries :=
  (t.cluster.step w e).map fun c =>
    { cluster := c
      stepped := match e with
        | .handle i (.packet k) => t.stepped ++ [(i, k)]
        | _ => t.stepped }

abbrev Reach (w : World) (ok : Deliveries → Event → Prop) : Deliveries → Prop :=
  Reachable ((Cluster.start w).map fun c => { cluster := c }) (step w) ok

/-- A leader that counts a reply has counted none that the peer sent later. -/
def InOrder (t : Deliveries) : Event → Prop
  | .handle i (.packet k) => ∀ n ∈ t.cluster.node i, ∀ pk ∈ t.cluster.net[k]?,
      n.raft.counts pk.msg = true → ∀ done ∈ t.stepped, done.1 = i →
        ∀ pk' ∈ t.cluster.net[done.2]?, n.raft.counts pk'.msg = true →
          pk'.msg.sender = pk.msg.sender → done.2 ≤ k
  | _ => True

instance decidableInOrder (t : Deliveries) : (e : Event) → Decidable (t.InOrder e)
  | .handle _ (.packet _) => inferInstanceAs (Decidable (∀ n ∈ _, _))
  | .handle _ .tick | .handle _ (.propose _) | .handle _ (.join _ _) | .crash _ _ | .dial _
  | .answer _ _ _ => inferInstanceAs (Decidable True)

def Heard (t : Deliveries) (i p : String) (term index : Nat) : Prop :=
  ∃ k pk, (i, k) ∈ t.stepped ∧ t.cluster.net[k]? = some pk ∧
    pk.msg.type = .appendEntriesResp ∧ pk.msg.reject = false ∧ pk.msg.sender = p ∧
    pk.msg.term = term ∧ pk.msg.index = index

theorem step_grows {e : Event} (h : t.step w e = some t') :
    t.cluster.step w e = some t'.cluster ∧ (∀ done ∈ t.stepped, done ∈ t'.stepped) ∧
      ∀ i k, e = .handle i (.packet k) → (i, k) ∈ t'.stepped := by
  obtain ⟨c, hstep, rfl⟩ := Option.map_eq_some_iff.mp h
  refine ⟨hstep, fun done hdone => ?_, ?_⟩
  · simp only
    split
    · exact List.mem_append_left _ hdone
    · exact hdone
  · rintro i k rfl
    exact List.mem_append_right _ (List.mem_singleton.mpr rfl)

theorem Heard.mono {e : Event} {p : String} {term index : Nat} (hstep : t.step w e = some t')
    (h : t.Heard i p term index) : t'.Heard i p term index := by
  obtain ⟨hcluster, hstepped, -⟩ := step_grows hstep
  obtain ⟨hhist, hnet⟩ := Cluster.step_grows hcluster
  obtain ⟨k, pk, hdone, hk, hrest⟩ := h
  exact ⟨k, pk, hstepped _ hdone, Cluster.Extends.packet ⟨hnet, hhist⟩ hk, hrest⟩

variable {ok : Deliveries → Event → Prop}

theorem Reach.cluster (hok : ∀ t e, ok t e → e.steady = true) (hreach : Reach w ok t) :
    Cluster.Reach w (fun _ e => e.steady = true) t.cluster := by
  induction hreach with
  | start h =>
    obtain ⟨c, hstart, rfl⟩ := Option.map_eq_some_iff.mp h
    exact .start hstart
  | step _ hoke hstep ih => exact ih.step (hok _ _ hoke) (step_grows hstep).1

/-- Every match index of a leader is that of a reply it has stepped. -/
theorem Reach.credited (hstatic : Static w) (hok : ∀ t e, ok t e → e.steady = true)
    (hreach : Reach w ok t) (hbelow : t.cluster.TermsBelow) :
    ∀ i n, t.cluster.node i = some n → n.raft.Credited (t.Heard i) := by
  induction hreach with
  | start h =>
    obtain ⟨c, hstart, rfl⟩ := Option.map_eq_some_iff.mp h
    intro i n hn hlead
    obtain ⟨-, hnode⟩ := (Cluster.start_past hstart).2 i
    rcases hnode with ⟨hnone, -⟩ | ⟨-, m, hm, hboot⟩
    · rw [hn] at hnone
      cases hnone
    · cases hn.symm.trans hm
      obtain ⟨peerAddrs, rfl⟩ := World.boot_eq hboot
      cases hlead
  | @step t t' e hreach hoke hstep ih =>
    obtain ⟨hcluster, -, hnew⟩ := step_grows hstep
    have hbefore := hbelow.before hcluster
    have hsteady := hok _ _ hoke
    obtain ⟨hjoinless, hcrashless⟩ := Bool.and_eq_true_iff.mp hsteady
    have hreached := Reach.cluster hok hreach
    intro i n' hn'
    rcases Cluster.step_node hcrashless hcluster hn' with ⟨n, hn, hraft⟩ |
      ⟨stimulus, n, input, via, n₁, rfl, hn, hinput, hact, hraft⟩
    · rw [hraft]
      exact fun hlead p hp hpos => (ih hbefore i n hn hlead p hp hpos).mono hstep
    · have hjoin : stimulus.isJoin = false := Event.isJoin_of_steady hsteady
      obtain ⟨s, hs⟩ := refines_of_steady hstatic (fun _ _ h => h) hreached hbefore
      have hself := (hs.node i n hn).tracks.self_not_mem
      obtain ⟨⟨r, lastApplied, hmoves, hraft₁⟩, -⟩ :=
        Cluster.acted_moves hreached.orderly hinput (no_join hjoin hinput) hact
      have hinbox : ∀ m, input.stepped n.id = some m → m.type = .appendEntriesResp →
          m.reject = false → t'.Heard i m.sender m.term m.index := by
        intro m hm htype hreject
        obtain ⟨k, pk, rfl, hpk, -, -, -, rfl⟩ :=
          Cluster.stepped_response hinput hm (.inr htype)
        obtain ⟨hhist, hnet⟩ := Cluster.step_grows hcluster
        exact ⟨k, pk, hnew i k rfl, Cluster.Extends.packet ⟨hnet, hhist⟩ hpk, htype, hreject,
          rfl, rfl, rfl⟩
      have hcredited : n.raft.Credited (t'.Heard i) :=
        fun hlead p hp hpos => (ih hbefore i n hn hlead p hp hpos).mono hstep
      have hafter := hmoves.credited hinbox hself hcredited
      rw [hraft, hraft₁]
      exact hafter

end Deliveries

/-- Whoever counts the replies of each peer in the order they were sent never takes a match
index back. -/
theorem match_never_back (hstatic : Static w) {t t' : Deliveries}
    (hreach : Deliveries.Reach w (fun t e => e.steady = true ∧ t.InOrder e) t)
    (hbelow : t.cluster.TermsBelow) {e : Event} (hsteady : e.steady = true)
    (horder : t.InOrder e) (hstep : t.step w e = some t') (hn : t.cluster.node i = some n)
    (hn' : t'.cluster.node i = some n') (hlead : n.raft.state = .leader)
    (hlead' : n'.raft.state = .leader) {p : String} (hp : p ∈ n.raft.peers) :
    n.raft.matchIndex.read p ≤ n'.raft.matchIndex.read p := by
  have hcluster := (Deliveries.step_grows hstep).1
  have hreached := Deliveries.Reach.cluster (fun _ _ h => h.1) hreach
  rcases Cluster.step_node (Bool.and_eq_true_iff.mp hsteady).2 hcluster hn' with
    ⟨m, hm, hraft⟩ | ⟨stimulus, m, input, via, n₁, rfl, hm, hinput, hact, hraft⟩
  · cases hn.symm.trans hm
    rw [hraft]
  · cases hn.symm.trans hm
    rw [hraft] at hlead' ⊢
    obtain ⟨s, hs⟩ := refines_of_steady hstatic (fun _ _ h => h) hreached hbelow
    have htracks := (hs.node i n hn).tracks
    have hother : p ≠ n.raft.id := by
      rw [htracks.id]
      exact ((htracks.peers p).mp hp).2
    rcases Node.act_matched hlead hact hlead' hother with hsame | ⟨msg, hmsg, hcounts, rfl, hnew⟩
    · exact hsame.ge
    · change _ ≤ n₁.raft.matchIndex.read msg.sender
      rw [hnew]
      rcases Nat.eq_zero_or_pos (n.raft.matchIndex.read msg.sender) with hzero | hpos
      · omega
      -- the value that is replaced came with a reply that was stepped before
      obtain ⟨-, htype, hterm, hreject⟩ := of_decide_eq_true hcounts
      obtain ⟨k', pk', hdone, hk', htype', hreject', hsender', hterm', hindex'⟩ :=
        Deliveries.Reach.credited hstatic (fun _ _ h => h.1) hreach hbelow i n hn hlead _ hp hpos
      have hcounts' : n.raft.counts pk'.msg = true :=
        decide_eq_true ⟨hlead, htype', hterm', hreject'⟩
      obtain ⟨k, pk, rfl, hk, -, -, -, rfl⟩ :=
        Cluster.stepped_response hinput hmsg (.inr htype)
      have hle := horder n hn pk hk hcounts (i, k') hdone rfl pk' hk' hcounts' hsender'
      rw [← hindex']
      exact hreached.acks_ordered hstatic hbelow hk hk' hle htype hreject htype' hreject'
        hsender' (hterm'.trans hterm.symm)

/-- A leads, B has taken and acknowledged two entries, and A has stepped neither reply. -/
def twoReplies : List Event :=
  [.handle "a" .tick, .dial 0, .handle "b" (.packet 2), .handle "a" (.packet 3), .dial 4,
    .handle "b" (.packet 6), .handle "a" (.propose [7]), .dial 8, .handle "b" (.packet 10)]

/-- A counts the first reply and then the second. -/
theorem match_never_back_second_reply :
    ∃ t, Deliveries.Reach (mesh ["a", "b", "c"] 1 1)
        (fun t e => e.steady = true ∧ t.InOrder e) t ∧
      ∃ n ∈ t.cluster.node "a",
        ∃ t' ∈ t.step (mesh ["a", "b", "c"] 1 1) (.handle "a" (.packet 11)),
          ∃ n' ∈ t'.cluster.node "a", n.raft.matchIndex.read "b" = 1 ∧
            n.raft.matchIndex.read "b" ≤ n'.raft.matchIndex.read "b" := by
  obtain ⟨t, hreach, hbelow, horder, n, hn, t', hstep, n', hn', hlead, hlead', hpeer, hmatch⟩ :
      ∃ t, Deliveries.Reach (mesh ["a", "b", "c"] 1 1) (fun t e => e.steady = true ∧ t.InOrder e) t
          ∧
        t.cluster.TermsBelow ∧ t.InOrder (.handle "a" (.packet 11)) ∧
        ∃ n ∈ t.cluster.node "a",
          ∃ t' ∈ t.step (mesh ["a", "b", "c"] 1 1) (.handle "a" (.packet 11)),
            ∃ n' ∈ t'.cluster.node "a", n.raft.state = .leader ∧ n'.raft.state = .leader ∧
              "b" ∈ n.raft.peers ∧ n.raft.matchIndex.read "b" = 1 :=
    Reachable.of_any (twoReplies ++ [.handle "a" (.packet 7)]) rfl
  exact ⟨t, hreach, n, hn, t', hstep, n', hn', hmatch,
    match_never_back (mesh_static (by decide) (by decide) 1 1) hreach hbelow rfl horder hstep hn
      hn' hlead hlead' hpeer⟩

/-- Overtaken by the second reply, the first one takes the match index back. -/
theorem late_reply_takes_match_back :
    ∃ c, Cluster.Reach (mesh ["a", "b", "c"] 1 1) (fun _ e => e.steady = true) c ∧
      ∃ n ∈ c.node "a", ∃ c' ∈ c.step (mesh ["a", "b", "c"] 1 1) (.handle "a" (.packet 7)),
        ∃ n' ∈ c'.node "a", n.raft.state = .leader ∧ n'.raft.state = .leader ∧
          n'.raft.currentTerm = n.raft.currentTerm ∧ n.raft.matchIndex.read "b" = 2 ∧
          n'.raft.matchIndex.read "b" = 1 :=
  Reachable.of_any (twoReplies ++ [.handle "a" (.packet 11)]) rfl

end Phalanx
