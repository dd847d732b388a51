import Phalanx.Raft.Operations

/-! Entries that a leader could commit and has not. The scan runs only when a successful
response arrives, while leadership and proposals change what it would find. A leader
without peers never gets a response, so it never commits at all. -/
namespace Phalanx

open Go

namespace Raft

variable {r r' : Raft} {msg : Message}

/-- Entry `n` is of the leader's term and on a quorum, and is not committed. -/
def LeftBehind (r : Raft) (n : Nat) : Prop :=
  r.commitIndex < n ∧ n ≤ r.lastLogIndex ∧
    (∃ e ∈ r.slots[n]?, e.term = r.currentTerm) ∧
    r.quorumSize ≤ 1 + (r.peers.filter fun peer => n ≤ r.matchIndex.read peer).length

instance (r : Raft) (n : Nat) : Decidable (r.LeftBehind n) := inferInstanceAs (Decidable (_ ∧ _))

/-- Where the next entry goes, by the number it gets or by its slot if that comes first. -/
def nextSlot (r : Raft) : Nat := min (r.lastLogIndex + 1) r.slots.length

/-- Not so many peers have matched past the end of the log that a new entry would be on a
quorum before it is sent. -/
def Unanticipated (r : Raft) : Prop :=
  1 + (r.peers.filter fun peer => r.nextSlot ≤ r.matchIndex.read peer).length < r.quorumSize

instance (r : Raft) : Decidable r.Unanticipated := inferInstanceAs (Decidable (_ < _))

def Heard (r : Raft) : Op → Prop
  | .tick | .step _ | .messages | .applicableEntries => True
  | .propose _ => r.state = .leader → r.Unanticipated
  | .addPeer _ => False

instance (r : Raft) : (op : Op) → Decidable (r.Heard op)
  | .tick | .step _ | .messages | .applicableEntries => inferInstanceAs (Decidable True)
  | .propose _ => inferInstanceAs (Decidable (_ → _))
  | .addPeer _ => inferInstanceAs (Decidable False)

structure Settled (r : Raft) : Prop where
  peers : r.peers ≠ []
  self : r.id ∉ r.peers
  none_left : r.state = .leader → ∀ n, ¬ r.LeftBehind n

theorem Settled.frame (h : r.Settled) (hid : r'.id = r.id) (hpeers : r'.peers = r.peers)
    (hlead : r'.state = .leader → ∀ n, ¬ r'.LeftBehind n) : r'.Settled where
  peers := hpeers ▸ h.peers
  self := by rw [hid, hpeers]; exact h.self
  none_left := hlead

theorem logTerm_of_slot {n : Nat} {e : LogEntry} (he : e ∈ r.slots[n]?) :
    r.logTerm n = e.term := by
  unfold logTerm
  rw [Option.mem_def.mp he]

theorem becomeLeader_settles (hpeers : r.peers ≠ []) (h : r.becomeLeader = some r') (n : Nat) :
    ¬ r'.LeftBehind n := by
  have hcrowned : r.crowned.broadcastHeartbeat = some r' := h
  obtain ⟨out, -, rfl⟩ := broadcastHeartbeat_eq hcrowned
  rintro ⟨hlow, -, -, hquorum⟩
  have hnone : (r.peers.filter fun peer => n ≤ (initialCursors r.peers 0).read peer) = [] := by
    rw [List.filter_eq_nil_iff]
    intro peer hpeer
    rw [initialCursors_read r.peers 0 hpeer, decide_eq_true_eq]
    omega
  change (r.peers.length + 1) / 2 + 1 ≤
    1 + (r.peers.filter fun peer => n ≤ (initialCursors r.peers 0).read peer).length at hquorum
  rw [hnone, List.length_nil] at hquorum
  have := List.length_pos_iff.mpr hpeers
  omega

theorem tick_settled (h : r.Settled) (htick : r.tick = some r') (hlead : r'.state = .leader)
    (n : Nat) : ¬ r'.LeftBehind n := by
  rcases tick_to_leader htick hlead with ⟨hstate, heartbeatElapsed, heartbeatAcked, msgs, rfl⟩ |
    ⟨-, r₁, hwon, hpeers, -⟩
  · exact h.none_left hstate n
  · exact becomeLeader_settles (hpeers ▸ h.peers) hwon n

theorem handleAppendEntriesResp_settled (h : r.Settled) (hstate : r.state = .leader)
    (hresp : r.handleAppendEntriesResp msg = some r') (n : Nat) : ¬ r'.LeftBehind n := by
  rcases handleAppendEntriesResp_cases hresp with ⟨rfl, -⟩ | ⟨-, nextIndex, -, -, -, -, rfl⟩ |
    ⟨-, -, -, matchIndex, nextIndex, -, rfl⟩
  · exact h.none_left hstate n
  · exact h.none_left hstate n
  · rintro ⟨hlow, hlast, ⟨e, he, hterm⟩, hquorum⟩
    rw [maybeAdvanceCommit_frame] at hlast he hterm hquorum
    have hscanned := maybeAdvanceCommit_covers
      { r with matchIndex, nextIndex, heartbeatAcked := r.heartbeatAcked + 1 } hlast
      ((logTerm_of_slot he).trans hterm) hquorum
    omega

theorem step_settled (h : r.Settled) (hstep : r.step msg = some r') (hlead : r'.state = .leader)
    (n : Nat) : ¬ r'.LeftBehind n := by
  rcases step_to_leader hstep hlead with ⟨hstate, -, hresp⟩ |
    ⟨hstate, votedFor, electionElapsed, msgs, rfl⟩ | ⟨-, r₁, hwon, hpeers⟩
  · exact handleAppendEntriesResp_settled h hstate hresp n
  · exact h.none_left hstate n
  · exact becomeLeader_settles (hpeers ▸ h.peers) hwon n

theorem propose_settled {data : List UInt8} {index : Option Nat} (h : r.Settled)
    (hstate : r.state = .leader) (hfew : r.Unanticipated)
    (hpropose : r.propose data = some (index, r')) (n : Nat) : ¬ r'.LeftBehind n := by
  obtain ⟨matchIndex, msgs, hread, rfl⟩ := propose_leader hstate hpropose
  rintro ⟨hlow, hlast, ⟨e, he, hterm⟩, hquorum⟩
  have hcount : (r.peers.filter fun peer => n ≤ matchIndex.read peer) =
      r.peers.filter fun peer => n ≤ r.matchIndex.read peer := by
    apply List.filter_congr
    intro peer hpeer
    rcases hread peer with hsame | ⟨rfl, -⟩
    · rw [hsame]
    · exact absurd hpeer h.self
  change r.quorumSize ≤ 1 + (r.peers.filter fun peer => n ≤ matchIndex.read peer).length at hquorum
  rw [hcount] at hquorum
  change n ≤ lastIndexOf (r.log ++ [_]) at hlast
  simp only [lastIndexOf, List.getLast?_concat, Option.getD_some] at hlast
  by_cases hbefore : n < r.nextSlot
  · -- an old slot, which was on a quorum before the call
    obtain ⟨hindex, hslot⟩ := Nat.lt_min.mp hbefore
    refine h.none_left hstate n ⟨hlow, by omega, ⟨e, ?_, hterm⟩, hquorum⟩
    change e ∈ (r.slots ++ [_])[n]? at he
    rwa [List.getElem?_append_left hslot] at he
  · have hmono : (r.peers.filter fun peer => n ≤ r.matchIndex.read peer).length ≤
        (r.peers.filter fun peer => r.nextSlot ≤ r.matchIndex.read peer).length := by
      apply List.Sublist.length_le
      apply List.monotone_filter_right
      intro peer hpeer
      have := of_decide_eq_true hpeer
      exact decide_eq_true (by omega)
    unfold Unanticipated at hfew
    omega

theorem perform_settled {op : Op} (h : r.Settled) (hok : r.Heard op)
    (hperform : r.perform op = some r') : r'.Settled := by
  cases op with
  | tick =>
    have hmoves : Moves (fun _ => False) (fun _ => True) r r' := tick_moves trivial hperform
    exact h.frame hmoves.same.id hmoves.same.peers fun hlead n => tick_settled h hperform hlead n
  | step msg =>
    obtain ⟨hid, hpeers, -⟩ := step_same hperform
    exact h.frame hid hpeers fun hlead n => step_settled h hperform hlead n
  | propose data =>
    obtain ⟨⟨index, r₁⟩, hpropose, hr₁⟩ := Option.map_eq_some_iff.mp hperform
    cases hr₁
    have hmoves : Moves (fun _ => False) (fun _ => True) r r₁ := propose_moves hpropose
    refine h.frame hmoves.same.id hmoves.same.peers fun hlead n => ?_
    by_cases hstate : r.state = .leader
    · exact propose_settled h hstate (hok hstate) hpropose n
    · rcases propose_cases hpropose with ⟨-, rfl⟩ | ⟨hyes, -⟩
      · exact absurd hlead hstate
      · exact absurd hyes hstate
  | addPeer nodeID => exact hok.elim
  | messages =>
    cases hperform
    exact h.frame rfl rfl h.none_left
  | applicableEntries =>
    cases hperform
    rw [applicableEntries_eq]
    exact h.frame rfl rfl h.none_left

theorem Run.settled {newSource : Int → Nat → Nat} {cfg : Config} (hpeers : cfg.peers ≠ [])
    (hself : cfg.id ∉ cfg.peers) (hrun : Run newSource cfg (fun r op => r.Heard op) r) :
    r.Settled := by
  induction hrun with
  | start h =>
    obtain ⟨rand, -, rfl⟩ := newRaft_eq h
    exact ⟨hpeers, hself, nofun⟩
  | step _ hok hperform ih => exact perform_settled ih hok hperform

end Raft

/-- With peers to wait for, and no proposal acknowledged before it is made, a leader has
committed whatever it could. -/
theorem commit_not_left_behind {newSource : Int → Nat → Nat} {cfg : Config} {r : Raft}
    (hpeers : cfg.peers ≠ []) (hself : cfg.id ∉ cfg.peers)
    (hrun : Raft.Run newSource cfg (fun r op => r.Heard op) r) (hlead : r.state = .leader)
    (n : Nat) : ¬ r.LeftBehind n :=
  (Raft.Run.settled hpeers hself hrun).none_left hlead n

/-- A leader of three with its first entry committed and a proposal under way. -/
theorem commit_not_left_behind_proposal :
    ∃ r, Raft.Run (fun _ _ => 0)
        { id := "a", peers := ["b", "c"], electionTimeout := 1, heartbeatTimeout := 1 }
        (fun r op => r.Heard op) r ∧
      r.commitIndex = 1 ∧ r.lastLogIndex = 2 ∧ ∀ n, ¬ r.LeftBehind n := by
  obtain ⟨r, hrun, hlead, hcommit, hlast⟩ :
      ∃ r, Raft.Run (fun _ _ => 0)
          { id := "a", peers := ["b", "c"], electionTimeout := 1, heartbeatTimeout := 1 }
          (fun r op => r.Heard op) r ∧
        r.state = .leader ∧ r.commitIndex = 1 ∧ r.lastLogIndex = 2 :=
    Reachable.of_any
      [.tick,
        .step { type := .requestVoteResp, sender := "b", recipient := "a", term := 1 },
        .step { type := .appendEntriesResp, sender := "b", recipient := "a", term := 1
                index := 1 },
        .propose [1]] rfl
  refine ⟨r, hrun, hcommit, hlast, fun n => ?_⟩
  exact commit_not_left_behind (by decide) (by decide) hrun hlead n

/-- A node without peers elects itself and leaves its first entry uncommitted. -/
theorem lone_leader_commits_nothing :
    ∃ r, Raft.Run (fun _ _ => 0)
        { id := "a", peers := [], electionTimeout := 1, heartbeatTimeout := 1 }
        (fun _ op => op = .tick) r ∧ r.state = .leader ∧ r.LeftBehind 1 :=
  Reachable.of_any [.tick] rfl

end Phalanx
