import Phalanx.Safety.Applied

/-! Reads at a leader that has just been elected. `HasLeaderQuorum` counts replies and
the commit rule counts peers, so a follower that replies twice can open the read gate
before the leader has committed anything of its own term. Where enough different
followers have matched, the leader has applied all that earlier leaders committed. -/
namespace Phalanx

open Consensus Go Raft

variable {w : World} {c : Cluster} {s : Protocol} {i j : String} {n n' : Node} {r r' : Raft}

namespace Raft

/-- Enough different followers have acknowledged something in this term. -/
def matchedQuorum (r : Raft) : Bool :=
  r.quorumSize ≤ 1 + (r.peers.filter fun peer => 0 < r.matchIndex.read peer).length

/-- A leader that a quorum has matched has committed an entry of its own term. -/
def Caught (r : Raft) : Prop :=
  r.state = .leader → r.matchedQuorum = true →
    ∃ k e, k < r.commitIndex ∧ r.log[k]? = some e ∧ e.term = r.currentTerm

theorem crowned_not_matched (r : Raft) (hpeers : r.peers ≠ []) :
    r.crowned.matchedQuorum = false := by
  have hnone : (r.peers.filter fun peer =>
      0 < (initialCursors r.peers 0).read peer) = [] := by
    rw [List.filter_eq_nil_iff]
    intro peer hpeer
    simp [initialCursors_read r.peers 0 hpeer]
  have hlen := List.length_pos_iff.mpr hpeers
  apply decide_eq_false
  unfold quorumSize clusterSize
  change ¬ (r.peers.length + 1) / 2 + 1 ≤
    1 + (r.peers.filter fun peer => 0 < (initialCursors r.peers 0).read peer).length
  rw [hnone, List.length_nil]
  omega

theorem Move.caught {inbox : Message → Prop} {clock : Nat → Prop}
    (hinbox : ∀ m, inbox m → m.type ≠ .appendEntriesResp) (hself : r.id ∉ r.peers)
    (hpeers : r.peers ≠ []) (h : Caught r) (hmove : Move inbox clock r r') : Caught r' := by
  cases hmove with
  | stand => exact fun hno => by cases hno
  | win =>
    intro _ hquorum
    rw [crowned_not_matched r hpeers] at hquorum
    cases hquorum
  | broadcast _ _ hout =>
    obtain ⟨out, -, rfl⟩ := broadcastHeartbeat_eq hout
    exact h
  | observe => exact fun hno => by cases hno
  | heed msg =>
    intro hno
    rw [heeding_state] at hno
    cases hno
  | accept msg log _ _ _ hstate =>
    rw [accepting_eq]
    intro hno
    change r.state = .leader at hno
    rw [hstate] at hno
    cases hno
  | matched msg matchIndex hin htype => exact absurd htype (hinbox msg hin)
  | advance msg n hin htype => exact absurd htype (hinbox msg hin)
  | extend data matchIndex hstate hmatch =>
    intro hlead hquorum
    have hsame : (r.peers.filter fun peer => 0 < matchIndex.read peer) =
        r.peers.filter fun peer => 0 < r.matchIndex.read peer := by
      apply List.filter_congr
      intro peer hpeer
      rw [hmatch peer fun heq => hself (heq ▸ hpeer)]
    unfold matchedQuorum at hquorum
    simp only [hsame] at hquorum
    obtain ⟨k, e, hk, he, hterm⟩ := h hlead hquorum
    exact ⟨k, e, hk, getElem?_of_isPrefix (List.prefix_append _ _) he, hterm⟩
  | _ => exact h

theorem Moves.caught {inbox : Message → Prop} {clock : Nat → Prop}
    (hinbox : ∀ m, inbox m → m.type ≠ .appendEntriesResp) (hself : r.id ∉ r.peers)
    (hpeers : r.peers ≠ []) (h : Caught r) (hmoves : Moves inbox clock r r') : Caught r' := by
  have hall : Caught r' ∧ r'.id = r.id ∧ r'.peers = r.peers := by
    induction hmoves with
    | refl => exact ⟨h, rfl, rfl⟩
    | tail _ hmove ih =>
      obtain ⟨hcaught, hid, hsame⟩ := ih
      obtain ⟨hid', hsame', -⟩ := hmove.sends
      refine ⟨hmove.caught hinbox ?_ ?_ hcaught, hid'.trans hid, hsame'.trans hsame⟩
      · rwa [hid, hsame]
      · rwa [hsame]
  exact hall.1

theorem step_caught {msg : Message} (htype : msg.type = .appendEntriesResp)
    (h : Caught r) (hstep : r.step msg = some r')
    (hcovers : r'.state = .leader → ∃ k e, k < r'.lastLogIndex ∧ r'.log[k]? = some e ∧
      e.term = r'.currentTerm ∧
      ∀ p ∈ r'.peers, 0 < r'.matchIndex.read p → k + 1 ≤ r'.matchIndex.read p) :
    Caught r' := by
  unfold step at hstep
  obtain ⟨r₁, hr₁, hstep⟩ := Option.bind_eq_some_iff.mp hstep
  have hobserve : Caught r₁ := by
    unfold observeTerm at hr₁
    split at hr₁
    · rw [becomeFollower_eq_some hr₁]
      exact fun hno => by cases hno
    · cases hr₁
      exact h
  simp only [handle, htype] at hstep
  rcases handleAppendEntriesResp_cases hstep with ⟨rfl, -⟩ | ⟨next, nextIndex, -, -, -, -, rfl⟩ |
    ⟨-, -, -, matchIndex, nextIndex, -, heq⟩
  · exact hobserve
  · exact hobserve
  · intro hlead hquorum
    obtain ⟨k, e, hk, he, hterm, hmatch⟩ := hcovers hlead
    have hframe := maybeAdvanceCommit_frame
      { r₁ with matchIndex, nextIndex, heartbeatAcked := r₁.heartbeatAcked + 1 }
    have hcount := @maybeAdvanceCommit_covers
      { r₁ with matchIndex, nextIndex, heartbeatAcked := r₁.heartbeatAcked + 1 } (k + 1)
    rw [← heq] at hframe hcount
    rw [hframe] at hk he hterm hmatch hquorum ⊢
    refine ⟨k, e, ?_, he, hterm⟩
    apply hcount hk
    · rw [← hterm]
      exact logTerm_of_getElem he
    · have hsame : (r₁.peers.filter fun peer => k + 1 ≤ matchIndex.read peer) =
          r₁.peers.filter fun peer => 0 < matchIndex.read peer := by
        apply List.filter_congr
        intro peer hpeer
        rw [decide_eq_decide]
        exact ⟨fun hle => by omega, hmatch peer hpeer⟩
      change _ ≤ 1 + (r₁.peers.filter fun peer => k + 1 ≤ matchIndex.read peer).length
      rw [hsame]
      exact of_decide_eq_true hquorum

end Raft

theorem Tracks.match_covers {mayCrash : Protocol → String → Prop}
    (hsafe : ProtocolSafe w.members.toFinset mayCrash s)
    (h : Tracks w.members.toFinset s i r) (hlead : r.state = .leader) :
    ∃ k e, k < r.lastLogIndex ∧ r.log[k]? = some e ∧ e.term = r.currentTerm ∧
      ∀ p ∈ r.peers, 0 < r.matchIndex.read p → k + 1 ≤ r.matchIndex.read p := by
  have hrole : (s.peer i).role = .leader := by
    simp [h.role, hlead]
  obtain ⟨k, hk, -⟩ := hsafe.votes.leaderReign i hrole
  have hlog := hsafe.logs.leaderLog i hrole
  obtain ⟨hne, hkeys⟩ := hsafe.logs.tail _ k hk
  rw [ledger_eq hk, h.log, Reign.log] at hlog
  rw [h.term] at hk hkeys
  obtain ⟨e, rest, htail⟩ := List.exists_cons_of_ne_nil hne
  have he : r.log[k.base.length]? = some e := by
    rw [hlog, htail, List.getElem?_append_right le_rfl, Nat.sub_self]
    rfl
  refine ⟨k.base.length, e, ?_, he, hkeys e (by simp [htail]), ?_⟩
  · rw [lastLogIndex_eq h.indexed]
    exact (List.getElem?_eq_some_iff.mp he).1
  · intro p hp hpos
    obtain ⟨k', hk', hlt⟩ := hsafe.reaching _ ((h.leading hlead).matched p hp hpos)
    rw [hk] at hk'
    cases hk'
    exact hlt

namespace Cluster

variable {stimulus : Stimulus} {input : Input} {via : Option (Nat × Packet)}

theorem acted_caught (hreach : (orderly w).Holds c) (hstatic : Static w)
    (h : Refines (fun _ _ => False) w c s) (hbelow : c.TermsBelow)
    (hmany : 1 < w.members.length) (hjoin : stimulus.isJoin = false)
    (hn : c.node i = some n) (hinput : c.input i stimulus = some (input, via))
    (hact : n.act w.env input = some n') (hcaught : Caught n.raft) : Caught n'.raft := by
  have htracks := (h.node i n hn).tracks
  by_cases hreply : ∃ m, input.stepped n.id = some m ∧ m.type = .appendEntriesResp
  · obtain ⟨m, hm, htype⟩ := hreply
    obtain ⟨⟨s', hsteps, -, htracks'⟩, -⟩ := h.acted hstatic hbelow hjoin hn hinput hact
    have hsafe := (h.safe.steps (fun t => quorums_meet _ t t) (quorums_meet _) hsteps).1
    obtain ⟨k, pk, -, -, -, -, rfl, rfl⟩ := stepped_response hinput hm (.inr htype)
    obtain ⟨raft, hstep, hact⟩ := Option.bind_eq_some_iff.mp hact
    rw [if_pos htype] at hact
    cases hact
    rw [(Node.applyCommitted_frame _ _).1, applicableEntries_eq] at htracks' ⊢
    have hcovers := htracks'.match_covers hsafe
    have hafter : Caught raft := step_caught htype hcaught hstep hcovers
    exact hafter
  · obtain ⟨⟨r₁, lastApplied, hmoves, hraft⟩, -⟩ :=
      acted_moves hreach hinput (no_join hjoin hinput) hact
    have hpeers : n.raft.peers ≠ [] := by
      intro hnil
      have hcard := htracks.card (List.mem_toFinset.mpr (h.node i n hn).member)
      rw [List.toFinset_card_of_nodup hstatic.nodup, hnil, List.length_nil] at hcard
      omega
    have hself := htracks.self_not_mem
    have hafter : Caught r₁ :=
      hmoves.caught (fun m hm htype => hreply ⟨m, hm, htype⟩) hself hpeers hcaught
    rw [hraft]
    exact hafter

def catching : Invariant where
  node := fun _ _ n => Caught n.raft
  packet := fun _ _ => True
  seen := fun _ _ _ => True
  node_mono := fun _ h => h
  packet_mono := fun _ h => h
  seen_mono := fun _ h => h

theorem catching_kept (hstatic : Static w) (hmany : 1 < w.members.length)
    {ok : Cluster → Event → Prop} (hok : ∀ c e, ok c e → e.steady = true ∧ c.TermsBelow) :
    catching.Kept w ok where
  boot := by
    intro c i n _ hboot
    obtain ⟨peerAddrs, rfl⟩ := World.boot_eq hboot
    exact ⟨fun hno => (by cases hno), trivial⟩
  handle := by
    intro c i stimulus n input via n' hreach h hoke hn hinput hact
    obtain ⟨hsteady, hbelow⟩ := hok _ _ hoke
    obtain ⟨s, hs⟩ := refines_of_steady hstatic (fun c e he => (hok c e he).1) hreach hbelow
    have hafter : Caught n'.raft := acted_caught hreach.orderly hstatic hs hbelow hmany
      (Event.isJoin_of_steady hsteady) hn hinput hact (h.node i n hn)
    exact ⟨hafter, trivial, fun _ _ => trivial⟩
  interrupt := fun _ _ _ _ _ _ _ _ _ _ _ _ _ => trivial
  crash := fun _ _ _ _ _ _ _ _ hoke => (Event.not_steady_crash (hok _ _ hoke).1).elim
  dial := fun _ _ _ _ _ _ _ _ _ _ _ _ => trivial
  answer := by
    intro c i call success n n' _ h _ hn hanswer
    obtain ⟨calls, rfl⟩ := Node.answer_frame hanswer
    exact h.node i n hn

def lonely : Invariant where
  node := fun _ _ n => n.raft.peers = [] ∧ n.raft.commitIndex = 0
  packet := fun _ _ => False
  seen := fun _ _ r => r.commitIndex = 0
  node_mono := fun _ h => h
  packet_mono := fun _ h => h
  seen_mono := fun _ h => h

theorem lonely_boot (hstatic : Static w) (hone : w.members.length ≤ 1) (hi : i ∈ w.members)
    {store : Store} (hboot : w.boot i store = some n) :
    n.raft.peers = [] ∧ n.raft.commitIndex = 0 := by
  obtain ⟨peerAddrs, rfl⟩ := World.boot_eq hboot
  refine ⟨?_, rfl⟩
  change w.peers i = []
  rw [List.eq_nil_iff_forall_not_mem]
  intro p hp
  obtain ⟨hmem, hne⟩ := (hstatic.peers i hi p).mp hp
  have hcard : w.members.toFinset.card ≤ 1 := (List.toFinset_card_le _).trans hone
  exact hne (Finset.card_le_one.mp hcard p (List.mem_toFinset.mpr hmem) i
    (List.mem_toFinset.mpr hi))

theorem acted_lonely (horderly : (orderly w).Holds c) (h : lonely.Holds c)
    {stimulus : Stimulus} {input : Input} {via : Option (Nat × Packet)}
    (hjoin : stimulus.isJoin = false) (hn : c.node i = some n)
    (hinput : c.input i stimulus = some (input, via)) (hact : n.act w.env input = some n') :
    n'.raft.peers = [] ∧ n'.raft.commitIndex = 0 ∧ n'.raft.msgs = [] := by
  obtain ⟨hpeers, hcommit⟩ := h.node i n hn
  have hsilent : ∀ m, input.stepped n.id = some m → False := by
    intro m hm
    obtain ⟨k, pk, -, -, hpk, -⟩ := stepped_packet hinput hm
    exact h.packet pk (List.mem_of_getElem? hpk)
  obtain ⟨⟨r₁, lastApplied, hmoves, hraft⟩, -⟩ :=
    acted_moves horderly hinput (no_join hjoin hinput) hact
  obtain ⟨-, hsame, hsends⟩ := hmoves.sends (horderly.node i n hn).drained
  rw [hraft]
  refine ⟨hsame.trans hpeers, ?_, ?_⟩
  · exact (hmoves.commitIndex_eq fun m hm => (hsilent m hm).elim).trans hcommit
  · change r₁.msgs = []
    rw [List.eq_nil_iff_forall_not_mem]
    intro m hm
    rcases (hsends m hm).kind with ⟨-, hpeer⟩ | ⟨-, msg, hin, -⟩
    · rw [hpeers] at hpeer
      cases hpeer
    · exact hsilent msg hin

theorem lonely_kept (hstatic : Static w) (hone : w.members.length ≤ 1)
    {ok : Cluster → Event → Prop} (hok : ∀ c e, ok c e → e.joinless = true) :
    lonely.Kept w ok where
  boot := by
    intro c i n hi hboot
    have hlone := lonely_boot hstatic hone hi hboot
    exact ⟨hlone, hlone.2⟩
  handle := by
    intro c i stimulus n input via n' hreach h hoke hn hinput hact
    have hjoin : stimulus.isJoin = false := by simpa [Event.joinless] using hok _ _ hoke
    obtain ⟨hpeers, hcommit, hmsgs⟩ := acted_lonely hreach.orderly h hjoin hn hinput hact
    refine ⟨⟨hpeers, hcommit⟩, hcommit, fun pk hpk => ?_⟩
    rw [hmsgs] at hpk
    rcases mem_emitted hpk with ⟨m, hm, -⟩ | ⟨k, req, m, -, -, hm, -⟩
    · cases hm
    · cases hm
  interrupt := by
    intro c i stimulus n input via n' hreach h hoke hn hinput hact
    have hjoin : stimulus.isJoin = false := by simpa [Event.joinless] using hok _ _ hoke
    exact (acted_lonely hreach.orderly h hjoin hn hinput hact).2.1
  crash := by
    intro c c₁ i during n n' hreach h _ hn hboot _ _
    have hlone := lonely_boot hstatic hone (hreach.orderly.node i n hn).member hboot
    exact ⟨hlone, hlone.2⟩
  dial := fun c k pk _ _ _ h _ hk _ _ _ => h.packet pk (List.mem_of_getElem? hk)
  answer := by
    intro c i call success n n' _ h _ hn hanswer
    obtain ⟨calls, rfl⟩ := Node.answer_frame hanswer
    exact h.node i n hn

end Cluster

theorem reads_follow_earlier_commits (hstatic : Static w)
    (hreach : Cluster.Reach w (fun _ e => e.steady = true) c) (hbelow : c.TermsBelow)
    (hn : c.node i = some n) (hserves : n.servesRead = true)
    (hmatched : n.raft.matchedQuorum = true) (hj : (j, r) ∈ c.hist) (hlead : r.state = .leader)
    (hterm : r.currentTerm < n.raft.currentTerm) : r.commitIndex ≤ n.raft.lastApplied := by
  by_cases hmany : 1 < w.members.length
  · have hbefore := hreach.before (fun _ _ _ hstep h => h.before hstep) hbelow
    have hcaught :=
      ((Cluster.catching_kept hstatic hmany (fun _ _ h => h)).reach hbefore).node i n hn
    have happlying := ((Cluster.applying_kept hstatic (fun _ _ h => h)).reach hbefore).node i n hn
    obtain ⟨s, hs⟩ := refines_of_steady hstatic (fun _ _ h => h) hreach hbelow
    have hloss : NoLoss (fun (_ : Protocol) (_ : String) => False) := fun _ _ hno => hno.elim
    have hleads : n.raft.state = .leader := (of_decide_eq_true hserves).1
    obtain ⟨k, hk, -, -, -, hlog, -⟩ := hs.hist _ (hs.now i n hn) hleads
    obtain ⟨-, -, -, -, -, -, hsettled⟩ := hs.hist _ hj hlead
    have hbase : r.commitIndex ≤ k.base.length := by
      have hpre := (hs.safe.kept hloss).settled_base hs.safe.logs hs.safe.votes (quorums_meet _)
        (hsettled hloss) hterm hk
      have hlen := hpre.length_le
      rwa [List.length_take, Nat.min_eq_left (hsettled hloss).1] at hlen
    obtain ⟨p, e, hp, he, hkey⟩ := hcaught hleads hmatched
    have he' : (s.ledger n.raft.currentTerm)[p]? = some e := by
      rw [ledger_eq hk]
      exact getElem?_of_isPrefix hlog he
    rw [happlying.caught]
    rcases hs.safe.logs.ledger_key hs.safe.votes hk he' with ⟨-, hless⟩ | ⟨hge, -⟩
    · exact absurd hkey (Nat.ne_of_lt hless)
    · omega
  · have hlonely := (Cluster.lonely_kept hstatic (Nat.le_of_not_lt hmany)
      (fun _ _ h => (Bool.and_eq_true_iff.mp h).1)).reach hreach
    rw [hlonely.seen j r hj]
    exact Nat.zero_le _

/-- A has committed its first entry when B wins term 2 and hears from A and from C. -/
theorem reads_follow_earlier_commits_takeover :
    ∃ c, Cluster.Reach (mesh ["a", "b", "c", "d"] 2 1) (fun _ e => e.steady = true) c ∧
      ∃ n ∈ c.node "b", n.servesRead = true ∧ ∃ seen ∈ c.hist, seen.2.commitIndex = 1 ∧
        seen.2.currentTerm < n.raft.currentTerm ∧ 1 ≤ n.raft.lastApplied := by
  obtain ⟨c, hreach, hbelow, n, hn, hserves, hmatched, seen, hseen, hcommit, hlead, hterm⟩ :
      ∃ c, Cluster.Reach (mesh ["a", "b", "c", "d"] 2 1) (fun _ e => e.steady = true) c ∧
        c.TermsBelow ∧ ∃ n ∈ c.node "b", n.servesRead = true ∧
        n.raft.matchedQuorum = true ∧ ∃ seen ∈ c.hist, seen.2.commitIndex = 1 ∧
        seen.2.state = .leader ∧ seen.2.currentTerm < n.raft.currentTerm :=
    Reachable.of_any
      [.handle "a" .tick, .handle "a" .tick, .dial 0, .dial 1, .handle "b" (.packet 3),
        .handle "c" (.packet 4), .handle "a" (.packet 5), .handle "a" (.packet 6), .dial 7,
        .dial 8, .handle "b" (.packet 10), .handle "c" (.packet 11), .handle "a" (.packet 12),
        .handle "a" (.packet 13), .handle "b" .tick, .handle "b" .tick, .dial 15, .dial 16,
        .handle "c" (.packet 17), .handle "d" (.packet 18), .handle "b" (.packet 19),
        .handle "b" (.packet 20), .dial 21, .dial 22, .handle "a" (.packet 24),
        .handle "c" (.packet 25), .handle "b" (.packet 26), .handle "b" (.packet 27)] rfl
  have hread := reads_follow_earlier_commits (mesh_static (by decide) (by decide) 2 1) hreach
    hbelow hn hserves hmatched hseen hlead hterm
  exact ⟨c, hreach, n, hn, hserves, seen, hseen, hcommit, hterm, hcommit ▸ hread⟩

/-- B wins term 2 and C acknowledges both its first entry and its first proposal, which
makes three with B itself. Nothing is delivered twice. -/
theorem repeated_replies_open_reads :
    ∃ events : List Event, (events.filter Event.delivers).Nodup ∧
      ∃ c ∈ Cluster.run (mesh ["a", "b", "c", "d"] 2 1) (fun _ e => e.steady = true) events,
        c.TermsBelow ∧ ∃ n ∈ c.node "b", n.servesRead = true ∧
          ∃ seen ∈ c.hist, seen.2.state = .leader ∧
            seen.2.currentTerm < n.raft.currentTerm ∧
            n.raft.lastApplied < seen.2.commitIndex := by
  refine ⟨[.handle "a" .tick, .handle "a" .tick, .dial 0, .dial 1, .handle "b" (.packet 3),
    .handle "c" (.packet 4), .handle "a" (.packet 5), .handle "a" (.packet 6), .dial 7, .dial 8,
    .handle "b" (.packet 10), .handle "c" (.packet 11), .handle "a" (.packet 12),
    .handle "a" (.packet 13), .handle "b" .tick, .handle "b" .tick, .dial 15, .dial 16,
    .handle "c" (.packet 17), .handle "d" (.packet 18), .handle "b" (.packet 19),
    .handle "b" (.packet 20), .handle "b" (.propose [7]), .dial 22, .dial 25,
    .handle "c" (.packet 27), .handle "c" (.packet 28), .handle "b" (.packet 29),
    .handle "b" (.packet 30)], by decide, ?_⟩
  apply of_decide_eq_true
  rfl

end Phalanx
