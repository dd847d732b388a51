import Phalanx.Invariant
import Phalanx.Refinement.Cluster
import Phalanx.Traffic

/-! State machine safety of a static cluster without crashes. Between two handlers
every node has applied exactly what it has committed, and what it has committed it
never loses, so what two nodes have applied agrees as far as the shorter goes. -/
namespace Phalanx

open Consensus Go Raft

variable {w : World} {c : Cluster} {i : String} {n n' : Node} {r : Raft}

namespace Raft

theorem applicableEntries_spec (hle : r.lastApplied ≤ r.commitIndex)
    (hlen : r.commitIndex ≤ r.log.length) :
    r.applicableEntries = ((r.log.drop r.lastApplied).take (r.commitIndex - r.lastApplied),
      { r with lastApplied := r.commitIndex }) := by
  unfold applicableEntries
  split
  next hge =>
    have heq : r.commitIndex = r.lastApplied := le_antisymm hge hle
    rw [Nat.sub_eq_zero_of_le hge, List.take_zero]
    congr 1
    exact (congrArg (fun k => ({ r with lastApplied := k } : Raft)) heq).symm
  next hlt =>
    have hslots : ¬ r.slots.length ≤ r.commitIndex := by
      simp only [slots, List.length_cons]
      omega
    simp only [if_neg hslots, if_neg hlt]
    rfl

end Raft

def KV.replay (unmarshal : List UInt8 → Option Command) (kv : KV) (entry : LogEntry) : KV :=
  if entry.type = .command ∧ entry.data ≠ [] then kv.applied unmarshal entry.data else kv

namespace Node

variable {env : Env}

theorem foldl_applyEntry_fsm (entries : List LogEntry) (n : Node) :
    (entries.foldl (applyEntry env) n).fsm = entries.foldl (KV.replay env.unmarshal) n.fsm := by
  induction entries generalizing n with
  | nil => rfl
  | cons entry rest ih =>
    rw [List.foldl_cons, List.foldl_cons, ih]
    congr 1
    unfold applyEntry KV.replay
    simp only
    split <;> rfl

structure Applying (env : Env) (n : Node) : Prop where
  caught : n.raft.lastApplied = n.raft.commitIndex
  applied : n.applied = n.raft.log.take n.raft.lastApplied
  fsm : n.fsm = n.applied.foldl (KV.replay env.unmarshal) {}

theorem Applying.apply (h : Applying env n) (hle : n.raft.commitIndex ≤ r.commitIndex)
    (hlen : r.commitIndex ≤ r.log.length) (happlied : r.lastApplied = n.raft.lastApplied)
    (hkept : n.raft.log.take n.raft.commitIndex = r.log.take n.raft.commitIndex) :
    Applying env (applyCommitted env { n with raft := r }) := by
  have hcaught := h.caught
  have hentries : r.applicableEntries = ((r.log.drop r.lastApplied).take
      (r.commitIndex - r.lastApplied), { r with lastApplied := r.commitIndex }) :=
    applicableEntries_spec (by omega) hlen
  obtain ⟨hraft, -, -, -, hlist⟩ := applyCommitted_frame env { n with raft := r }
  simp only [hentries] at hraft hlist
  refine ⟨by rw [hraft], ?_, ?_⟩
  · rw [hlist, hraft, h.applied, hcaught, hkept, happlied, hcaught, ← List.take_add]
    simp only
    congr 1
    omega
  · rw [hlist, List.foldl_append, ← h.fsm]
    unfold applyCommitted
    simp only [hentries]
    exact foldl_applyEntry_fsm _ _

theorem Applying.hold (h : Applying env n) (hcommit : r.commitIndex = n.raft.commitIndex)
    (happlied : r.lastApplied = n.raft.lastApplied)
    (hkept : n.raft.log.take n.raft.commitIndex = r.log.take n.raft.commitIndex)
    (hraft : n'.raft = r) (hlist : n'.applied = n.applied) (hfsm : n'.fsm = n.fsm) :
    Applying env n' := by
  have hcaught := h.caught
  refine ⟨by rw [hraft]; omega, ?_, by rw [hlist, hfsm, h.fsm]⟩
  rw [hlist, h.applied, hraft, happlied, hcaught, hkept]

end Node

theorem Refines.act_keeps {s : Protocol} (hstatic : Static w)
    (h : Refines (fun _ _ => False) w c s) (hbelow : c.TermsBelow) {stimulus : Stimulus}
    {input : Input} {via : Option (Nat × Packet)} (hjoin : stimulus.isJoin = false)
    (hn : c.node i = some n) (hinput : c.input i stimulus = some (input, via))
    (hact : n.act w.env input = some n') :
    n.raft.commitIndex ≤ n'.raft.commitIndex ∧ n'.raft.commitIndex ≤ n'.raft.log.length ∧
      n.raft.log.take n.raft.commitIndex = n'.raft.log.take n.raft.commitIndex := by
  obtain ⟨⟨s', hsteps, -, htracks⟩, -⟩ := h.acted hstatic hbelow hjoin hn hinput hact
  have htracks₀ := (h.node i n hn).tracks
  have hkeeps := h.safe.steps_keeps (fun t => quorums_meet _ t t) (quorums_meet _)
    (fun _ _ hno => hno) hsteps i
  have hsafe := (h.safe.steps (fun t => quorums_meet _ t t) (quorums_meet _) hsteps).1
  have hloss : NoLoss (fun (_ : Protocol) (_ : String) => False) := fun _ _ hno => hno.elim
  have hlen := ((hsafe.commits hloss).peerCommit i).1
  have hlen₀ := ((h.safe.commits hloss).peerCommit i).1
  unfold Peer.Keeps at hkeeps
  rw [htracks.log, htracks.commit] at hkeeps hlen
  rw [htracks₀.log, htracks₀.commit] at hkeeps hlen₀
  refine ⟨hkeeps.1, hlen, ?_⟩
  have htake := List.prefix_iff_eq_take.mp hkeeps.2
  rwa [List.length_take, Nat.min_eq_left hlen₀] at htake

namespace Cluster

def applying (w : World) : Invariant where
  node := fun _ _ n => Node.Applying w.env n
  packet := fun _ _ => True
  seen := fun _ _ _ => True
  node_mono := fun _ h => h
  packet_mono := fun _ h => h
  seen_mono := fun _ h => h

theorem applying_kept (hstatic : Static w) {ok : Cluster → Event → Prop}
    (hok : ∀ c e, ok c e → e.steady = true ∧ c.TermsBelow) : (applying w).Kept w ok where
  boot := by
    intro c i n _ hboot
    obtain ⟨peerAddrs, rfl⟩ := World.boot_eq hboot
    exact ⟨⟨rfl, rfl, rfl⟩, trivial⟩
  handle := by
    intro c i stimulus n input via n' hreach h hoke hn hinput hact
    obtain ⟨hsteady, hbelow⟩ := hok _ _ hoke
    have hjoin : stimulus.isJoin = false := Event.isJoin_of_steady hsteady
    obtain ⟨s, hs⟩ := refines_of_steady hstatic (fun c e he => (hok c e he).1) hreach hbelow
    obtain ⟨hle, hlen, hkept⟩ := hs.act_keeps hstatic hbelow hjoin hn hinput hact
    refine ⟨?_, trivial, fun _ _ => trivial⟩
    have hold := h.node i n hn
    obtain ⟨r, hmoves, hcloses⟩ :=
      acted_closes hreach.orderly hinput (no_join hjoin hinput) hact
    have happlied := hmoves.lastApplied_eq
    have hnew : Node.Applying w.env n' := by
      obtain ⟨⟨lastApplied, hraft⟩, -⟩ := hcloses.frame
      rw [hraft] at hle hlen hkept
      cases hcloses with
      | apply => exact hold.apply hle hlen happlied hkept
      | hold hcommit => exact hold.hold hcommit happlied hkept rfl rfl rfl
      | register hpropose hwrite =>
        exact hold.hold (propose_commitIndex hpropose) happlied hkept rfl rfl rfl
    exact ⟨hnew.caught, hnew.applied, hnew.fsm⟩
  interrupt := fun _ _ _ _ _ _ _ _ _ _ _ _ _ => trivial
  crash := fun _ _ _ _ _ _ _ _ hoke => (Event.not_steady_crash (hok _ _ hoke).1).elim
  dial := fun _ _ _ _ _ _ _ _ _ _ _ _ => trivial
  answer := by
    intro c i call success n n' _ h _ hn hanswer
    obtain ⟨calls, rfl⟩ := Node.answer_frame hanswer
    exact { h.node i n hn with }

end Cluster

theorem state_machine_safety (hstatic : Static w)
    (hreach : Cluster.Reach w (fun _ e => e.steady = true) c) (hbelow : c.TermsBelow) :
    (∀ i n, c.node i = some n → n.raft.lastApplied ≤ n.raft.commitIndex ∧
      n.raft.commitIndex ≤ n.raft.lastLogIndex ∧
      n.applied = n.raft.log.take n.raft.lastApplied) ∧
    ∀ i j n m, c.node i = some n → c.node j = some m →
      (n.applied <+: m.applied ∨ m.applied <+: n.applied) ∧
      (n.raft.lastApplied = m.raft.lastApplied → n.fsm = m.fsm) := by
  obtain ⟨s, hs⟩ := refines_of_steady hstatic (fun _ _ h => h) hreach hbelow
  have hloss : NoLoss (fun (_ : Protocol) (_ : String) => False) := fun _ _ hno => hno.elim
  have happlying : ∀ i n, c.node i = some n → Node.Applying w.env n := by
    have hbefore := hreach.before (fun _ _ _ hstep h => h.before hstep) hbelow
    exact ((Cluster.applying_kept hstatic (fun _ _ h => h)).reach hbefore).node
  have hsettled : ∀ i n, c.node i = some n → Settled LogEntry.term
      (quorums w.members.toFinset) s n.raft.currentTerm n.raft.log n.raft.commitIndex := by
    intro i n hn
    have htracks := (hs.node i n hn).tracks
    have := (hs.safe.commits hloss).peerCommit i
    rwa [htracks.term, htracks.log, htracks.commit] at this
  refine ⟨?_, ?_⟩
  · intro i n hn
    obtain ⟨hcaught, happlied, -⟩ := happlying i n hn
    refine ⟨hcaught.le, ?_, happlied⟩
    rw [lastLogIndex_eq (hs.node i n hn).tracks.indexed]
    exact (hsettled i n hn).1
  · intro i j n m hn hm
    obtain ⟨hcaught, happlied, hfsm⟩ := happlying i n hn
    obtain ⟨hcaught', happlied', hfsm'⟩ := happlying j m hm
    have hagree : n.applied <+: m.applied ∨ m.applied <+: n.applied := by
      rw [happlied, happlied', hcaught, hcaught']
      exact (hs.safe.kept hloss).settled_agree hs.safe.logs hs.safe.votes (quorums_meet _)
        (hsettled i n hn) (hsettled j m hm)
    refine ⟨hagree, fun hequal => ?_⟩
    have hlength : n.applied.length = m.applied.length := by
      have hlen := (hsettled i n hn).1
      have hlen' := (hsettled j m hm).1
      rw [happlied, happlied', List.length_take, List.length_take]
      omega
    have hsame : n.applied = m.applied := hagree.elim (fun h => h.eq_of_length hlength)
      fun h => (h.eq_of_length hlength.symm).symm
    rw [hfsm, hfsm', hsame]

/-- A and B have both applied the proposal that A made. -/
theorem state_machine_safety_proposal :
    ∃ c, Cluster.Reach (mesh ["a", "b", "c"] 1 1) (fun _ e => e.steady = true) c ∧
      ∃ n ∈ c.node "a", ∃ m ∈ c.node "b", n.applied.map LogEntry.data = [[], [7]] ∧
        n.applied = n.raft.log.take 2 ∧ m.applied = m.raft.log.take 2 ∧ n.fsm = m.fsm := by
  obtain ⟨c, hreach, hbelow, n, hn, m, hm, hdata, hlast, hlast'⟩ :
      ∃ c, Cluster.Reach (mesh ["a", "b", "c"] 1 1) (fun _ e => e.steady = true) c ∧
        c.TermsBelow ∧ ∃ n ∈ c.node "a", ∃ m ∈ c.node "b",
        n.applied.map LogEntry.data = [[], [7]] ∧ n.raft.lastApplied = 2 ∧
        m.raft.lastApplied = 2 :=
    Reachable.of_any
      [.handle "a" .tick, .dial 0, .handle "b" (.packet 2), .handle "a" (.packet 3), .dial 4,
        .handle "b" (.packet 6), .handle "a" (.packet 7), .handle "a" (.propose [7]), .dial 8,
        .handle "b" (.packet 10), .handle "a" (.packet 11), .handle "a" .tick, .dial 12,
        .handle "b" (.packet 14)] rfl
  obtain ⟨heach, hboth⟩ := state_machine_safety (mesh_static (by decide) (by decide) 1 1) hreach
    hbelow
  refine ⟨c, hreach, n, hn, m, hm, hdata, ?_, ?_, ?_⟩
  · exact hlast ▸ (heach "a" n hn).2.2
  · exact hlast' ▸ (heach "b" m hm).2.2
  · exact (hboth "a" "b" n m hn hm).2 (hlast.trans hlast'.symm)

end Phalanx
