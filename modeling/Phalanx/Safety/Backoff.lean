import Phalanx.Raft.Exchange
import Phalanx.Replay
import Phalanx.Safety.Acks
import Phalanx.Safety.WellFormed

/-! A leader brings every peer that has not gone past its term up to its own log. What the
exchanges need of the two logs is that an accepted append leaves the leader's log and nothing
more; the refinement gives it as long as no term wraps. -/
namespace Phalanx

open Consensus Go Raft

variable {w : World} {c : Cluster} {s : Protocol} {i p : String} {n m : Node}

theorem Refines.eq_of_leader {mayCrash : Protocol → String → Prop} (h : Refines mayCrash w c s)
    (hn : c.node i = some n) (hlead : n.raft.state = .leader) (hm : c.node p = some m)
    (hterm : m.raft.currentTerm ≤ n.raft.currentTerm) (hhas : n.raft.log <+: m.raft.log) :
    m.raft.log = n.raft.log := by
  obtain ⟨e, he, heterm⟩ :=
    h.last_term hm ⟨n.raft, h.now i n hn, hlead, rfl, rfl⟩ hhas hterm
  have htracks := (h.node i n hn).tracks
  have hledger : n.raft.log = s.ledger n.raft.currentTerm := by
    have hown := h.safe.logs.leaderLog i
    rw [htracks.log, htracks.term, htracks.role] at hown
    exact hown (by rw [hlead]; rfl)
  have hpre := h.sound hm _ e he
  rw [List.take_of_length_le (by omega), heterm, ← hledger] at hpre
  exact hpre.eq_of_length (Nat.le_antisymm hpre.length_le hhas.length_le)

theorem Refines.catches {mayCrash : Protocol → String → Prop} (h : Refines mayCrash w c s)
    (hn : c.node i = some n) (hlead : n.raft.state = .leader) (hm : c.node p = some m)
    (hterm : m.raft.currentTerm ≤ n.raft.currentTerm) : m.raft.Catches n.raft.log := by
  intro msg hcarries hpasses
  have hindexed := (h.node p m hm).tracks.indexed
  have hloop :=
    appendLoop_eq hindexed msg.entries msg.prevLogIndex (passes_within hindexed hpasses)
  rw [hloop]
  obtain ⟨hhas, hsame | htaken⟩ :=
    h.accepted hm ⟨n.raft, h.now i n hn, hlead, rfl, rfl⟩ hcarries hpasses hloop
  · rw [hsame] at hhas ⊢
    rw [h.eq_of_leader hn hlead hm hterm hhas]
  · rw [htaken]

namespace Cluster

def fitted : Invariant where
  node := fun _ _ n => n.raft.Equipped
  packet := fun _ _ => True
  seen := fun _ _ _ => True
  node_mono := fun _ h => h
  packet_mono := fun _ h => h
  seen_mono := fun _ h => h

theorem fitted_kept (hstatic : Static w) {ok : Cluster → Event → Prop}
    (hok : ∀ c e, ok c e → e.steady = true ∧ c.TermsBelow) : fitted.Kept w ok where
  boot := fun c i n _ hboot => ⟨(tidy_boot rfl hboot).2, trivial⟩
  handle := by
    intro c i stimulus n input via n' hreach h hoke hn hinput hact
    obtain ⟨s, hs⟩ := refines_of_steady hstatic (fun c e he => (hok c e he).1) hreach
      (hok _ _ hoke).2
    have hequipped :=
      Node.act_equipped (hs.node i n hn).tracks.indexed (h.node i n hn) hact
    exact ⟨⟨hequipped.base, hequipped.votes, hequipped.cursors⟩, trivial, fun _ _ => trivial⟩
  interrupt := fun _ _ _ _ _ _ _ _ _ _ _ _ _ => trivial
  crash := fun _ _ _ _ _ _ _ _ hoke _ _ _ _ => (Event.not_steady_crash (hok _ _ hoke).1).elim
  dial := fun _ _ _ _ _ _ _ _ _ _ _ _ => trivial
  answer := by
    intro c i call success n n' _ h _ hn hanswer
    obtain ⟨calls, rfl⟩ := Node.answer_frame hanswer
    exact h.node i n hn

theorem Reach.facing (hstatic : Static w) (hreach : Reach w (fun _ e => e.steady = true) c)
    (hbelow : c.TermsBelow) (hn : c.node i = some n) (hlead : n.raft.state = .leader)
    (hm : c.node p = some m) (hother : p ≠ i)
    (hterm : m.raft.currentTerm ≤ n.raft.currentTerm) : Facing n.raft m.raft := by
  obtain ⟨s, hs⟩ := refines_of_steady hstatic (fun _ _ h => h) hreach hbelow
  have hfitted : fitted.Holds c := (fitted_kept hstatic fun _ _ h => h).reach
    (hreach.before (fun _ _ _ hstep h => h.before hstep) hbelow)
  have hleader := hs.node i n hn
  have hpeer := hs.node p m hm
  have hin : m.raft.id ∈ n.raft.peers := by
    rw [hpeer.tracks.id, hleader.tracks.peers]
    exact ⟨List.mem_toFinset.mpr hpeer.member, hother⟩
  obtain ⟨-, e, he, -⟩ := hs.led ⟨n.raft, hs.now i n hn, hlead, rfl, rfl⟩
  exact
    { leader := hlead
      equipped := hfitted.node i n hn
      drained := hleader.drained
      indexed := hleader.tracks.indexed
      started := List.ne_nil_of_mem (List.mem_of_getElem? he)
      peer := hin
      cursor := (hleader.tracks.leading hlead).cursor _ hin
      own := hs.catches hn hlead hn le_rfl
      base := (hfitted.node p m hm).base
      silent := hpeer.drained
      term := hterm
      catches := hs.catches hn hlead hm hterm }

end Cluster

/-- However far apart the two logs are, the cursor for the peer bounds the exchanges that it
takes to make them one. -/
theorem backoff_converges (hstatic : Static w)
    (hreach : Cluster.Reach w (fun _ e => e.steady = true) c) (hbelow : c.TermsBelow)
    (hn : c.node i = some n) (hlead : n.raft.state = .leader) (hm : c.node p = some m)
    (hother : p ≠ i) (hterm : m.raft.currentTerm ≤ n.raft.currentTerm) :
    (∀ k, ∃ l f l' f' refused, exchanges n.raft m.raft k = some (l, f) ∧
      l.exchange f = some (l', f', refused) ∧
      (refused = true → l'.nextIndex.read p < l.nextIndex.read p ∧ 1 ≤ l'.nextIndex.read p) ∧
      (refused = false → f'.log = l'.log ∧ l'.log = n.raft.log ∧
        l'.matchIndex.read p = l'.lastLogIndex ∧
        l'.nextIndex.read p = l'.lastLogIndex + 1)) ∧
    ∃ k < n.raft.nextIndex.read p, ∃ l f l' f', exchanges n.raft m.raft k = some (l, f) ∧
      l.exchange f = some (l', f', false) := by
  have hfacing := hreach.facing hstatic hbelow hn hlead hm hother hterm
  obtain ⟨s, hs⟩ := refines_of_steady hstatic (fun _ _ h => h) hreach hbelow
  have hname : m.raft.id = p := (hs.node p m hm).tracks.id
  refine ⟨fun k => ?_, hname ▸ hfacing.converges⟩
  obtain ⟨l, f, hmany, hpair, hid, hlog⟩ := hfacing.exchanged_many k
  obtain ⟨l', f', refused, hone, hpair', hid', hlog', hdown, htaken⟩ := hpair.exchanged
  rw [hid.trans hname] at hdown htaken
  refine ⟨l, f, l', f', refused, hmany, hone, fun hrefused => ⟨hdown hrefused, ?_⟩,
    fun haccepted => ?_⟩
  · have hpos := hpair'.cursor
    rwa [hid'.trans (hid.trans hname)] at hpos
  · obtain ⟨hsame, hmatch, hnext⟩ := htaken haccepted
    rw [lastLogIndex_eq hpair'.indexed, hlog']
    exact ⟨hsame, hlog, hmatch, hnext⟩

/-- Node `b` leads term 2 with an entry that `c` has not seen, so its first cursor is refused. -/
theorem backoff_converges_second_cursor :
    ∃ c n m, Cluster.Reach (mesh ["a", "b", "c"] 1 1) (fun _ e => e.steady = true) c ∧
      c.node "b" = some n ∧ c.node "c" = some m ∧ n.raft.nextIndex.read "c" = 2 ∧
      (∃ x ∈ n.raft.exchange m.raft, x.2.2 = true) ∧
      ∃ k < 2, ∃ l f l' f', exchanges n.raft m.raft k = some (l, f) ∧
        l.exchange f = some (l', f', false) := by
  obtain ⟨c, hreach, hbelow, n, hn, m, hm, hlead, hterm, hnext, hfirst⟩ :
      ∃ c, Cluster.Reach (mesh ["a", "b", "c"] 1 1) (fun _ e => e.steady = true) c ∧
        c.TermsBelow ∧ ∃ n ∈ c.node "b", ∃ m ∈ c.node "c", n.raft.state = .leader ∧
        m.raft.currentTerm ≤ n.raft.currentTerm ∧ n.raft.nextIndex.read "c" = 2 ∧
        ∃ x ∈ n.raft.exchange m.raft, x.2.2 = true :=
    Reachable.of_any
      [.handle "a" .tick, .dial 0, .handle "b" (.packet 2), .handle "a" (.packet 3), .dial 4,
        .handle "b" (.packet 6), .handle "b" .tick, .dial 9, .handle "c" (.packet 10),
        .handle "b" (.packet 11)] rfl
  obtain ⟨-, hconverges⟩ := backoff_converges (mesh_static (by decide) (by decide) 1 1) hreach
    hbelow hn hlead hm (by decide) hterm
  rw [hnext] at hconverges
  exact ⟨c, n, m, hreach, hn, hm, hnext, hfirst, hconverges⟩

/-! Terms that wrap. A node that hears from nobody stands for one term after another, and
after `2^64` of them for one that somebody else has led. -/

/-- Node `b` of three as it stands for a term, with nothing in its log. -/
def aspirant (term : Nat) : Node where
  id := "b"
  raft :=
    { id := "b", currentTerm := term, votedFor := "b", state := .candidate, electionTimeout := 1
      heartbeatTimeout := 1, baseElectionTimeout := 1, peers := ["a", "c"], rand := fun _ => 0
      votes := ⟨some (Finmap.insert "b" true ∅)⟩ }
  store := { term, votedFor := "b" }

theorem aspirant_candidacy (term : Nat) :
    (aspirant term).raft.candidacy = (aspirant (succ64 term)).raft := by
  have hdraw : wrapInt (1 + (0 : Nat) % 1) = 1 := rfl
  simp only [Raft.candidacy, Raft.redraw, aspirant, hdraw]

theorem aspirant_tick (term : Nat) :
    ((aspirant term).act (mesh ["a", "b", "c"] 1 1).env .tick).map (fun n => (n.release true).1) =
      some (aspirant (succ64 term)) := by
  have htick : (aspirant term).raft.tick =
      some (aspirant (succ64 term)).raft.broadcastRequestVote := by
    change (aspirant term).raft.becomeCandidate = _
    rw [Raft.becomeCandidate_eq, if_pos (by exact Int.one_pos), aspirant_candidacy]
    with_unfolding_all rfl
  simp only [Node.act, htick]
  with_unfolding_all rfl

theorem Cluster.Reach.aspire
    (hreach : Cluster.Reach (mesh ["a", "b", "c"] 1 1) (fun _ e => e.steady = true) c)
    {term : Nat} (hterm : term < uint64Size) (hb : c.node "b" = some (aspirant term)) (k : Nat) :
    ∃ c', Cluster.Reach (mesh ["a", "b", "c"] 1 1) (fun _ e => e.steady = true) c' ∧
      c'.node = Function.update c.node "b" (some (aspirant ((term + k) % uint64Size))) := by
  induction k with
  | zero =>
    refine ⟨c, hreach, ?_⟩
    rw [Nat.add_zero, Nat.mod_eq_of_lt hterm, ← hb, Function.update_eq_self]
  | succ k ih =>
    obtain ⟨c₁, hreach₁, hnode⟩ := ih
    obtain ⟨n, hact, hafter⟩ :=
      Option.map_eq_some_iff.mp (aspirant_tick ((term + k) % uint64Size))
    have hstep : c₁.step (mesh ["a", "b", "c"] 1 1) (.handle "b" .tick) =
        some (c₁.completed "b" n none) := by
      simp only [Cluster.step, hnode, Function.update_self, Cluster.input, Node.declines, hact,
        Option.bind_eq_bind, Option.bind_some, Bool.false_eq_true, if_false]
      rfl
    refine ⟨_, hreach₁.step rfl hstep, ?_⟩
    change Function.update c₁.node "b" (some (n.release true).1) = _
    rw [hafter, hnode, Function.update_idem, succ64, Nat.mod_add_mod, Nat.add_assoc]

theorem Cluster.Reach.wrap
    (hreach : Cluster.Reach (mesh ["a", "b", "c"] 1 1) (fun _ e => e.steady = true) c)
    {term : Nat} (hterm : term < uint64Size) (hb : c.node "b" = some (aspirant term)) :
    ∃ d c', Cluster.Reach (mesh ["a", "b", "c"] 1 1) (fun _ e => e.steady = true) c' ∧
      Cluster.Resumes d
        { node := Function.update c.node "b" (some (aspirant 0)), net := [], hist := [] } c' := by
  obtain ⟨c', hreach', hnode⟩ := hreach.aspire hterm hb (uint64Size - term)
  rw [Nat.add_sub_cancel' hterm.le, Nat.mod_self] at hnode
  refine ⟨c'.net.length, c', hreach', ?_, c'.net, rfl, (List.append_nil _).symm⟩
  intro i n hn
  rw [hnode]
  exact hn

theorem Event.steady_after (d : Nat) (e : Event) : (e.after d).steady = e.steady := by
  have hjoin : ∀ stimulus : Stimulus, (stimulus.after d).isJoin = stimulus.isJoin := by
    intro stimulus
    cases stimulus <;> rfl
  cases e with
  | handle i stimulus => simp [Event.after, Event.steady, Event.joinless, Event.crashless, hjoin]
  | crash i during => simp [Event.after, Event.steady, Event.crashless]
  | dial k => rfl
  | answer i call success => rfl

/-- Before the terms wrap: `a` wins term 1 with the vote of `b` and appends an entry of its own,
and `b` stands for term 2. -/
def firstReign : List Event :=
  [.handle "a" .tick, .dial 0, .handle "b" (.packet 2), .handle "a" (.packet 3),
    .handle "a" (.propose [1]), .handle "b" .tick]

/-- After they have wrapped: `b` wins term 1 with the vote of `c`, which has not heard of the
other reign, and appends another entry; `c` takes that over and wins term 2 with the vote of
`a`. -/
def secondReign : List Event :=
  [.handle "b" .tick, .dial 1, .handle "c" (.packet 2), .handle "b" (.packet 3),
    .handle "b" (.propose [2]), .dial 7, .handle "c" (.packet 8), .handle "c" .tick, .dial 10,
    .handle "a" (.packet 12), .handle "c" (.packet 13)]

/-- The log of `a` passes the check at an index where `c` has another entry of the same term. -/
theorem wrapped_term_hides_conflict :
    ∃ c n m l f, Cluster.Reach (mesh ["a", "b", "c"] 1 1) (fun _ e => e.steady = true) c ∧
      c.node "c" = some n ∧ c.node "a" = some m ∧ n.raft.state = .leader ∧
      m.raft.state = .follower ∧ m.raft.currentTerm ≤ n.raft.currentTerm ∧
      n.raft.exchange m.raft = some (l, f, false) ∧ f.log ≠ l.log := by
  have hfirst : (Cluster.run (mesh ["a", "b", "c"] 1 1) (fun _ e => e.steady = true)
      firstReign).map (fun c => c.node "b") = some (some (aspirant 2)) := by
    with_unfolding_all rfl
  have hsecond : ((Cluster.run (mesh ["a", "b", "c"] 1 1) (fun _ e => e.steady = true)
      firstReign).bind fun c => walk (Cluster.step (mesh ["a", "b", "c"] 1 1))
        (fun _ e => e.steady = true)
        { node := Function.update c.node "b" (some (aspirant 0)), net := [], hist := [] }
        secondReign).any (fun c => decide (∃ n ∈ c.node "c", ∃ m ∈ c.node "a",
          n.raft.state = .leader ∧ m.raft.state = .follower ∧
          m.raft.currentTerm ≤ n.raft.currentTerm ∧
          ∃ x ∈ n.raft.exchange m.raft, x.2.2 = false ∧ x.2.1.log ≠ x.1.log)) = true := rfl
  obtain ⟨c₀, hbind, hend⟩ := (Option.any_eq_true _ _).mp hsecond
  obtain ⟨n, hn, m, hm, hlead, hfollow, hterm, ⟨l, f, refused⟩, hone, rfl, hdiffer⟩ :=
    of_decide_eq_true hend
  obtain ⟨c₁, hrun, hwalk⟩ := Option.bind_eq_some_iff.mp hbind
  rw [hrun, Option.map_some, Option.some.injEq] at hfirst
  obtain ⟨start, hstart, hwalk₁⟩ := Option.bind_eq_some_iff.mp hrun
  have hreach₁ := Reachable.of_walk (.start hstart) hwalk₁
  obtain ⟨d, c₂, hreach₂, hresumes⟩ := Cluster.Reach.wrap hreach₁ (by decide) hfirst
  obtain ⟨c, hreach, hc⟩ :=
    Cluster.Reach.resume (fun _ _ e he => (e.steady_after d).trans he) hreach₂ hresumes hwalk
  exact ⟨c, n, m, l, f, hreach, hc.node _ n hn, hc.node _ m hm, hlead, hfollow, hterm, hone,
    hdiffer⟩

end Phalanx
