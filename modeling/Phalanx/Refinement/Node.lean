import Phalanx.Cluster
import Phalanx.Raft.Moves

/-! What the handlers of a node do to its Raft instance: moves, then at most an
advance of `lastApplied`. Nothing else of the node changes on the way except what
clients see. -/
namespace Phalanx

open Go Raft

/-- The message a handler steps its instance with. -/
def Input.stepped (id : String) : Input → Option Message
  | .request msg => some (msg.received id)
  | .response msg => some msg
  | _ => none

namespace Node

variable {env : Env} {n n' : Node} {input : Input}

theorem foldl_applyEntry_frame (entries : List LogEntry) (n : Node) :
    (entries.foldl (applyEntry env) n).raft = n.raft ∧
    (entries.foldl (applyEntry env) n).store = n.store ∧
    (entries.foldl (applyEntry env) n).id = n.id ∧
    (entries.foldl (applyEntry env) n).peerAddrs = n.peerAddrs ∧
    (entries.foldl (applyEntry env) n).applied = n.applied := by
  induction entries generalizing n with
  | nil => exact ⟨rfl, rfl, rfl, rfl, rfl⟩
  | cons entry rest ih =>
    rw [List.foldl_cons]
    have hone : (applyEntry env n entry).raft = n.raft ∧
        (applyEntry env n entry).store = n.store ∧ (applyEntry env n entry).id = n.id ∧
        (applyEntry env n entry).peerAddrs = n.peerAddrs ∧
        (applyEntry env n entry).applied = n.applied := by
      unfold applyEntry
      simp only
      split <;> exact ⟨rfl, rfl, rfl, rfl, rfl⟩
    obtain ⟨h₁, h₂, h₃, h₄, h₅⟩ := ih (applyEntry env n entry)
    rw [h₁, h₂, h₃, h₄, h₅]
    exact hone

theorem applyCommitted_frame (env : Env) (n : Node) :
    (applyCommitted env n).raft = n.raft.applicableEntries.2 ∧
    (applyCommitted env n).store = n.store ∧ (applyCommitted env n).id = n.id ∧
    (applyCommitted env n).peerAddrs = n.peerAddrs ∧
    (applyCommitted env n).applied = n.applied ++ n.raft.applicableEntries.1 :=
  foldl_applyEntry_frame _ _

theorem answer_frame {call : Nat} {success : Bool} (h : n.answer call success = some n') :
    ∃ calls, n' = { n with calls } := by
  unfold answer at h
  split at h
  · split at h
    · cases h
      exact ⟨_, rfl⟩
    · cases h
  · cases h

/-- How a handler that has brought the instance to `r` goes on. -/
inductive Closes (env : Env) (n : Node) (r : Raft) : Node → Prop
  | apply : Closes env n r (applyCommitted env { n with raft := r })
  | hold (hcommit : r.commitIndex = n.raft.commitIndex) : Closes env n r { n with raft := r }
  | register {data : List UInt8} {idx : Nat} {proposals : GoMap Nat Nat}
      (hpropose : n.raft.propose data = some (some idx, r))
      (hwrite : n.proposals.write idx n.calls.length = some proposals) :
      Closes env n r { n with
        raft := r, proposals
        calls := n.calls ++ [{ index := idx, term := r.currentTerm, data }] }

private theorem register_closes {inbox : Message → Prop} {clock : Nat → Prop}
    {data : List UInt8} (h : n.register data = some n') :
    ∃ r, Moves inbox clock n.raft r ∧ Closes env n r n' := by
  unfold register at h
  obtain ⟨⟨proposed, raft⟩, hpropose, h⟩ := Option.bind_eq_some_iff.mp h
  refine ⟨raft, propose_moves hpropose, ?_⟩
  cases proposed with
  | none =>
    cases h
    exact .hold (propose_commitIndex hpropose)
  | some idx =>
    obtain ⟨proposals, hwrite, h⟩ := Option.bind_eq_some_iff.mp h
    cases h
    exact .register hpropose hwrite

theorem act_closes {clock : Nat → Prop} (hjoin : ∀ a b, input ≠ .join a b)
    (hclock : input = .tick → clock n.raft.currentTerm)
    (hreal : ∀ m, input.stepped n.id = some m → m.isPreVote = false)
    (hreply : ∀ m, input = .response m → m.isRequest = false)
    (h : n.act env input = some n') :
    ∃ r, Moves (fun m => input.stepped n.id = some m) clock n.raft r ∧ Closes env n r n' := by
  cases input with
  | tick =>
    obtain ⟨raft, htick, h⟩ := Option.bind_eq_some_iff.mp h
    cases h
    exact ⟨raft, tick_moves (hclock rfl) htick, .apply⟩
  | propose data => exact register_closes h
  | request msg =>
    obtain ⟨raft, hstep, h⟩ := Option.bind_eq_some_iff.mp h
    have hmoves : Moves (fun m => (Input.request msg).stepped n.id = some m) clock n.raft raft :=
      step_moves rfl (hreal _ rfl) hstep
    refine ⟨raft, hmoves, ?_⟩
    split at h
    · cases h
      exact .apply
    next hne =>
      cases h
      apply Closes.hold (hmoves.commitIndex_eq _)
      intro m hm
      cases hm
      rw [Message.received, if_neg hne]
      exact ⟨nofun, nofun⟩
  | response msg =>
    obtain ⟨raft, hstep, h⟩ := Option.bind_eq_some_iff.mp h
    have hmoves : Moves (fun m => (Input.response msg).stepped n.id = some m) clock n.raft
        raft := step_moves rfl (hreal _ rfl) hstep
    refine ⟨raft, hmoves, ?_⟩
    split at h
    · cases h
      exact .apply
    next hne =>
      cases h
      apply Closes.hold (hmoves.commitIndex_eq _)
      intro m hm
      cases hm
      refine ⟨fun heq => ?_, hne⟩
      have hrequest := hreply msg rfl
      simp [Message.isRequest, heq] at hrequest
  | join nodeID raftAddr => exact absurd rfl (hjoin nodeID raftAddr)

structure SameHost (n n' : Node) : Prop where
  store : n'.store = n.store
  id : n'.id = n.id
  peerAddrs : n'.peerAddrs = n.peerAddrs

theorem Closes.frame {r : Raft} (h : Closes env n r n') :
    (∃ lastApplied, n'.raft = { r with lastApplied }) ∧ SameHost n n' := by
  cases h with
  | apply =>
    obtain ⟨hraft, hstore, hid, haddrs, -⟩ := applyCommitted_frame env { n with raft := r }
    refine ⟨⟨r.applicableEntries.2.lastApplied, ?_⟩, hstore, hid, haddrs⟩
    rw [hraft]
    exact applicableEntries_eq r
  | hold => exact ⟨⟨r.lastApplied, rfl⟩, rfl, rfl, rfl⟩
  | register => exact ⟨⟨r.lastApplied, rfl⟩, rfl, rfl, rfl⟩

theorem act_moves {clock : Nat → Prop} (hjoin : ∀ a b, input ≠ .join a b)
    (hclock : input = .tick → clock n.raft.currentTerm)
    (hreal : ∀ m, input.stepped n.id = some m → m.isPreVote = false)
    (hreply : ∀ m, input = .response m → m.isRequest = false)
    (h : n.act env input = some n') :
    (∃ r₁ lastApplied, Moves (fun m => input.stepped n.id = some m) clock n.raft r₁ ∧
      n'.raft = { r₁ with lastApplied }) ∧ SameHost n n' := by
  obtain ⟨r, hmoves, hcloses⟩ := act_closes hjoin hclock hreal hreply h
  obtain ⟨⟨lastApplied, hraft⟩, hsame⟩ := hcloses.frame
  exact ⟨⟨r, lastApplied, hmoves, hraft⟩, hsame⟩

/-- The one operation of the instance that a handler calls. -/
inductive Performs (n : Node) : Input → Raft → Prop
  | tick {r : Raft} (h : n.raft.tick = some r) : Performs n .tick r
  | propose {data : List UInt8} {index : Option Nat} {r : Raft}
      (h : n.raft.propose data = some (index, r)) : Performs n (.propose data) r
  | step {input : Input} {m : Message} {r : Raft} (hm : input.stepped n.id = some m)
      (h : n.raft.step m = some r) : Performs n input r
  | join {nodeID raftAddr : String} : Performs n (.join nodeID raftAddr) (n.raft.addPeer nodeID)

theorem act_performs (h : n.act env input = some n') :
    ∃ r lastApplied, Performs n input r ∧ n'.raft = { r with lastApplied } ∧
      n'.store = n.store := by
  have happly : ∀ r : Raft, ∃ lastApplied,
      (applyCommitted env { n with raft := r }).raft = { r with lastApplied } ∧
        (applyCommitted env { n with raft := r }).store = n.store := by
    intro r
    obtain ⟨hraft, hstore, -⟩ := applyCommitted_frame env { n with raft := r }
    refine ⟨r.applicableEntries.2.lastApplied, ?_, hstore⟩
    rw [hraft]
    exact applicableEntries_eq r
  cases input with
  | tick =>
    obtain ⟨r, htick, h⟩ := Option.bind_eq_some_iff.mp h
    cases h
    obtain ⟨lastApplied, hframe⟩ := happly r
    exact ⟨r, lastApplied, .tick htick, hframe⟩
  | propose data =>
    obtain ⟨⟨proposed, r⟩, hpropose, h⟩ := Option.bind_eq_some_iff.mp h
    refine ⟨r, r.lastApplied, .propose hpropose, ?_⟩
    cases proposed with
    | none =>
      cases h
      exact ⟨rfl, rfl⟩
    | some idx =>
      obtain ⟨proposals, -, h⟩ := Option.bind_eq_some_iff.mp h
      cases h
      exact ⟨rfl, rfl⟩
  | request msg | response msg =>
    obtain ⟨r, hstep, h⟩ := Option.bind_eq_some_iff.mp h
    split at h
    · cases h
      obtain ⟨lastApplied, hframe⟩ := happly r
      exact ⟨r, lastApplied, .step rfl hstep, hframe⟩
    · cases h
      exact ⟨r, r.lastApplied, .step rfl hstep, rfl, rfl⟩
  | join nodeID raftAddr =>
    obtain ⟨peerAddrs, -, h⟩ := Option.bind_eq_some_iff.mp h
    cases h
    refine ⟨_, n.raft.lastApplied, .join, ?_, rfl⟩
    change n.raft.addPeer nodeID = _
    rw [(addPeer_frame n.raft nodeID).1]

end Node

def World.fresh (w : World) (i : String) (store : Store) : Raft :=
  let seed := (djb2 i).toInt64.toInt
  { id := i
    currentTerm := store.term
    votedFor := store.votedFor
    log := store.log
    heartbeatTimeout := w.heartbeatTimeout i
    baseElectionTimeout := w.electionTimeout i
    peers := w.peers i
    rand := w.env.newSource seed : Raft }.redraw

theorem World.boot_eq {w : World} {i : String} {store : Store} {n : Node}
    (h : w.boot i store = some n) :
    ∃ peerAddrs, n = { id := i, raft := w.fresh i store, store, peerAddrs } := by
  obtain ⟨n₀, hnew, h⟩ := Option.bind_eq_some_iff.mp h
  have hfold : ∀ (addrs : List (String × String)) (m m' : Node),
      addrs.foldlM (fun n addr => n.setPeerAddr addr.1 addr.2) m = some m' →
      ∃ peerAddrs, m' = { m with peerAddrs } := by
    intro addrs
    induction addrs with
    | nil =>
      intro m m' hm
      cases hm
      exact ⟨m.peerAddrs, rfl⟩
    | cons addr rest ih =>
      intro m m' hm
      rw [List.foldlM_cons] at hm
      obtain ⟨m₁, hm₁, hm⟩ := Option.bind_eq_some_iff.mp hm
      obtain ⟨peerAddrs, -, hm₁⟩ := Option.bind_eq_some_iff.mp hm₁
      cases hm₁
      obtain ⟨final, rfl⟩ := ih _ _ hm
      exact ⟨final, rfl⟩
  obtain ⟨raft, hraft, hn⟩ := Option.bind_eq_some_iff.mp hnew
  cases hn
  have hfresh : raft = w.fresh i store := by
    simp only [newRaft, if_true, resetElectionTimeout] at hraft
    split at hraft
    · exact (Option.some.inj hraft).symm
    · cases hraft
  subst hfresh
  exact hfold _ _ _ h

theorem World.boot_base {w : World} {i : String} {store : Store} {n : Node}
    (h : w.boot i store = some n) : 0 < w.electionTimeout i := by
  obtain ⟨n₀, hnew, -⟩ := Option.bind_eq_some_iff.mp h
  obtain ⟨raft, hraft, -⟩ := Option.bind_eq_some_iff.mp hnew
  simp only [newRaft, if_true, resetElectionTimeout] at hraft
  split at hraft
  next hbase => exact hbase
  next => cases hraft

end Phalanx
