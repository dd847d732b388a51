import Phalanx.Refinement.Cluster
import Phalanx.Traffic

/-! Election safety of a static cluster, with crashes at any point. A handler that a
crash interrupts may leave a leader behind for a moment, but only one whose term was
saved before; in a cluster of one the same node simply wins again. -/
namespace Phalanx

open Consensus Go Raft

variable {w : World} {c c' : Cluster} {s : Protocol} {i j : String} {n n' : Node} {r r' : Raft}

theorem tick_leader (hpeers : r.peers ≠ []) (h : r.tick = some r') (hleader : r'.state = .leader) :
    r.state ≠ .follower ∧ r'.currentTerm = r.currentTerm := by
  rcases tick_cases h with ⟨hstate, h⟩ | ⟨hstate, h⟩
  · obtain ⟨heartbeatElapsed, heartbeatAcked, msgs, rfl⟩ := tickHeartbeat_frame h
    exact ⟨by simp [hstate], rfl⟩
  · exfalso
    rcases tickElection_cases h with ⟨-, rfl⟩ | ⟨-, h⟩
    · exact hstate hleader
    · have hno := candidacy_no_quorum { r with electionElapsed := 0, leaderActive := false } hpeers
      rcases becomeCandidate_cases h with ⟨hquorum, -⟩ | ⟨-, rfl⟩
      · rw [hno] at hquorum
        cases hquorum
      · cases hleader

theorem Refines.act_leader {mayCrash : Protocol → String → Prop} (h : Refines mayCrash w c s)
    (hmany : 1 < w.members.length) (hstatic : Static w) {stimulus : Stimulus} {input : Input}
    {via : Option (Nat × Packet)} (hjoin : stimulus.isJoin = false) (hn : c.node i = some n)
    (hinput : c.input i stimulus = some (input, via)) (hact : n.act w.env input = some n')
    (hleader : n'.raft.state = .leader) :
    n.raft.state ≠ .follower ∧ n'.raft.currentTerm = n.raft.currentTerm := by
  have hhosts := h.node i n hn
  by_cases htick : input = .tick
  · subst htick
    obtain ⟨raft, hraft, hact⟩ := Option.bind_eq_some_iff.mp hact
    cases hact
    rw [(Node.applyCommitted_frame _ _).1, applicableEntries_eq] at hleader ⊢
    have hpeers : n.raft.peers ≠ [] := by
      intro hnil
      have hcard := hhosts.tracks.card (List.mem_toFinset.mpr hhosts.member)
      rw [List.toFinset_card_of_nodup hstatic.nodup, hnil, List.length_nil] at hcard
      omega
    have hoffice : n.raft.state ≠ .follower ∧ raft.currentTerm = n.raft.currentTerm :=
      tick_leader hpeers hraft hleader
    exact hoffice
  · have hacted : (∃ r₁ lastApplied, Moves (fun m => input.stepped n.id = some m)
        (fun _ => False) n.raft r₁ ∧ n'.raft = { r₁ with lastApplied }) ∧ Node.SameHost n n' := by
      apply Node.act_moves _ (fun h => htick h) (fun m hm => (h.deliverable hn hinput hm).1.1)
        (fun _ hm => Cluster.reply_of_input hinput hm) hact
      exact no_join hjoin hinput
    obtain ⟨⟨r₁, lastApplied, hmoves, hraft⟩, -⟩ := hacted
    rw [hraft] at hleader ⊢
    exact hmoves.keeps_office (fun _ hno => hno) (by simp only at hleader; simp [hleader])

theorem Refines.crash_sound (h : Refines (fun _ _ => True) w c s) (hmany : 1 < w.members.length)
    (hstatic : Static w) {e : Event} (hjoin : e.joinless = true) :
    CrashAllowed (fun _ _ => True) w c e := by
  cases e with
  | crash i during =>
    cases during with
    | none =>
      intro n hn
      exact ⟨fun hleader => ⟨by simp [hleader], rfl, fun _ _ => trivial⟩, fun _ _ _ => trivial⟩
    | some stimulus =>
      intro n input via n' hn hinput hact
      refine ⟨fun hleader => ?_, fun _ _ _ => trivial⟩
      obtain ⟨hoffice, hterm⟩ := h.act_leader hmany hstatic (by simpa [Event.joinless] using hjoin)
        hn hinput hact hleader
      exact ⟨hoffice, hterm, fun _ _ => trivial⟩
  | _ => trivial

theorem static_leader_unique (hstatic : Static w)
    (hreach : Cluster.Reach w (fun _ e => e.joinless = true) c) (hbelow : c.TermsBelow)
    (hi : (i, r) ∈ c.hist) (hj : (j, r') ∈ c.hist) (hlead : r.state = .leader)
    (hlead' : r'.state = .leader) (hterm : r.currentTerm = r'.currentTerm) : i = j := by
  have hmem := hreach.orderly.seen
  by_cases hmany : 1 < w.members.length
  · have hrefines : ∃ s, Refines (fun _ _ => True) w c s := by
      apply refines_of_reach hstatic (fun _ _ h => h) _ hreach hbelow
      exact fun c e s hjoin _ hs => hs.crash_sound hmany hstatic hjoin
    obtain ⟨s, hs⟩ := hrefines
    obtain ⟨k, hk, rfl, -⟩ := hs.hist _ hi hlead
    obtain ⟨k', hk', rfl, -⟩ := hs.hist _ hj hlead'
    simp only at hk hk'
    rw [hterm, hk'] at hk
    cases hk
    rfl
  · have hcard : w.members.toFinset.card ≤ 1 :=
      (List.toFinset_card_le w.members).trans (Nat.le_of_not_lt hmany)
    exact Finset.card_le_one.mp hcard i (List.mem_toFinset.mpr (hmem _ _ hi)) j
      (List.mem_toFinset.mpr (hmem _ _ hj))

/-- At most one node is ever leader in a term. -/
theorem election_safety (hstatic : Static w)
    (hreach : Cluster.Reach w (fun _ e => e.joinless = true) c) (hbelow : c.TermsBelow)
    (hi : (i, r) ∈ c.hist) (hj : (j, r') ∈ c.hist) (hlead : r.state = .leader)
    (hlead' : r'.state = .leader) (hterm : r.currentTerm = r'.currentTerm) : i = j :=
  static_leader_unique hstatic hreach hbelow hi hj hlead hlead' hterm

/-- A wins term 1 and crashes in the middle of a tick, B wins term 2. -/
theorem election_safety_reelection :
    ∃ c, Cluster.Reach (mesh ["a", "b", "c"] 1 1) (fun _ e => e.joinless = true) c ∧
      (∀ seen ∈ c.hist, seen.2.state = .leader → seen.2.currentTerm = 1 → seen.1 = "a") ∧
      ∃ seen ∈ c.hist, seen.1 = "b" ∧ seen.2.state = .leader ∧ seen.2.currentTerm = 2 := by
  obtain ⟨c, hreach, hbelow, ⟨⟨i, r⟩, hi, rfl, hlead, hterm⟩, hsecond⟩ :
      ∃ c, Cluster.Reach (mesh ["a", "b", "c"] 1 1) (fun _ e => e.joinless = true) c ∧
        c.TermsBelow ∧
        (∃ seen ∈ c.hist, seen.1 = "a" ∧ seen.2.state = .leader ∧ seen.2.currentTerm = 1) ∧
        ∃ seen ∈ c.hist, seen.1 = "b" ∧ seen.2.state = .leader ∧ seen.2.currentTerm = 2 :=
    Reachable.of_any
      [.handle "a" .tick, .dial 0, .handle "b" (.packet 2), .handle "a" (.packet 3),
        .crash "a" (some .tick), .handle "b" .tick, .dial 7, .handle "c" (.packet 8),
        .handle "b" (.packet 9)] rfl
  refine ⟨c, hreach, ?_, hsecond⟩
  intro seen hseen hlead' hterm'
  exact election_safety (mesh_static (by decide) (by decide) 1 1) hreach hbelow hseen hi hlead'
    hlead (hterm'.trans hterm.symm)

end Phalanx
