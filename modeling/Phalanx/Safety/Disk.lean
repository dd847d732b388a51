import Phalanx.Raft.Outbox
import Phalanx.Refinement.Cluster
import Phalanx.Storage.Entries
import Phalanx.Traffic

/-! The cluster over the bytes on its disks. A handler saves the term and the vote as bytes
before its messages leave, and a node that comes back reads the bytes and nothing else. Since no
term is outside `uint64` and node IDs are UTF-8, what it reads is what it had when the last
handler ended. -/
namespace Phalanx

open Go Raft

/-- `LoadState` and `LoadLog` as `NewNode` calls them. The Raft core keeps the vote as text. -/
def Store.ofDisk (db : DB) : Option Store := do
  let (savedTerm, savedVote) := db.loadState
  let votedFor ← String.fromUTF8? ⟨savedVote.toArray⟩
  let savedLog ← db.loadLog jsonEntries
  pure { term := savedTerm, votedFor, log := savedLog }

def World.bootDisk (w : World) (i : String) (db : DB) : Option Node :=
  (Store.ofDisk db).bind (w.boot i)

def Node.persistDisk (n : Node) (db : DB) : DB :=
  db.saveState n.raft.currentTerm n.raft.votedFor.toUTF8.data.toList

structure OnDisk where
  cluster : Cluster
  disk : String → DB

namespace OnDisk

def start (w : World) : Option OnDisk := do
  let c ← w.members.foldlM (fun c i => do
    let n ← w.bootDisk i KeyValue.Table.empty
    pure (Cluster.setNode c i n)) { node := fun _ => none, net := [], hist := [] }
  pure { cluster := c, disk := fun _ => KeyValue.Table.empty }

def step (w : World) (d : OnDisk) : Event → Option OnDisk
  | .handle i stimulus => do
    let n ← d.cluster.node i
    let (input, via) ← d.cluster.input i stimulus
    if n.declines input then some d
    else
      let n ← n.act w.env input
      some { cluster := d.cluster.completed i n via
             disk := Function.update d.disk i (n.persistDisk (d.disk i)) }
  | .crash i during => do
    let n ← d.cluster.node i
    let c ← match during with
      | none => some d.cluster
      | some stimulus => do
        let (input, _) ← d.cluster.input i stimulus
        let interrupted ← n.act w.env input
        some (d.cluster.recorded i interrupted)
    let n ← w.bootDisk i (d.disk i)
    some { d with cluster := c.setNode i n }
  | e => do
    let c ← d.cluster.step w e
    some { d with cluster := c }

abbrev Reach (w : World) (ok : Cluster → Event → Prop) : OnDisk → Prop :=
  Reachable (start w) (step w) fun d e => ok d.cluster e

end OnDisk

variable {w : World} {ok : Cluster → Event → Prop} {c c' : Cluster} {d d' : OnDisk} {i : String}
variable {n n' : Node} {db : DB} {store : Store}

namespace Raft

variable {inbox : Message → Prop} {clock : Nat → Prop} {r r' : Raft}

theorem Moves.term_lt (hmoves : Moves inbox clock r r')
    (hinbox : ∀ m, inbox m → m.term < uint64Size) (hterm : r.currentTerm < uint64Size) :
    r'.currentTerm < uint64Size := by
  induction hmoves with
  | refl => exact hterm
  | tail _ hmove ih =>
    cases hmove with
    | stand => exact Nat.mod_lt _ (by decide)
    | observe msg hin => exact hinbox msg hin
    | broadcast _ _ h =>
      obtain ⟨out, -, rfl⟩ := broadcastHeartbeat_eq h
      exact ih
    | heed msg hin =>
      unfold heeding
      split
      · exact ih
      · exact hinbox msg hin
    | accept msg log =>
      rw [accepting_eq]
      exact ih
    | _ => exact ih

end Raft

namespace Cluster

def ranged : Invariant where
  node := fun _ _ n => n.raft.currentTerm < uint64Size
  packet := fun _ pk => pk.msg.term < uint64Size
  seen := fun _ _ _ => True
  node_mono := fun _ h => h
  packet_mono := fun _ h => h
  seen_mono := fun _ h => h

theorem ranged_boot (hstore : store.term < uint64Size) (hboot : w.boot i store = some n) :
    n.raft.currentTerm < uint64Size := by
  obtain ⟨peerAddrs, rfl⟩ := World.boot_eq hboot
  exact hstore

theorem ranged_kept (w : World) (ok : Cluster → Event → Prop) : ranged.Kept w ok where
  boot := fun c i n _ hboot => ⟨ranged_boot (by decide) hboot, trivial⟩
  handle := by
    intro c i stimulus n input via n' hreach h _ hn hinput hact
    have hterm : n'.raft.currentTerm < uint64Size := by
      rcases acted_cases hreach.orderly hinput hact with ⟨r₁, lastApplied, hmoves, hraft⟩ |
        ⟨peers, hraft⟩
      · rw [hraft]
        refine hmoves.term_lt (fun m hm => ?_) (h.node i n hn)
        obtain ⟨k, pk, -, -, hk, -, hcase⟩ := stepped_packet hinput hm
        have hpk := h.packet pk (List.mem_of_getElem? hk)
        rcases hcase with ⟨hrequest, -, rfl⟩ | ⟨-, -, rfl⟩
        · rw [(Message.received_frame hrequest n.id).2.2.1]
          exact hpk
        · exact hpk
      · rw [hraft]
        exact h.node i n hn
    refine ⟨hterm, trivial, fun pk hpk => ?_⟩
    have hposted := Node.act_posts (hreach.orderly.node i n hn).drained hact
    change pk.msg.term < uint64Size
    rcases mem_emitted hpk with ⟨m, hm, -, rfl⟩ | ⟨k, req, m, -, -, hm, -, rfl⟩
    · exact (hposted m hm).term.trans_lt hterm
    · rw [(Message.answered_frame req.msg m).2.2.1]
      exact (hposted m hm).term.trans_lt hterm
  interrupt := fun _ _ _ _ _ _ _ _ _ _ _ _ _ => trivial
  crash := by
    intro c c₁ i during n n' hreach h _ hn hboot _ _
    have hstore : n.store.term < uint64Size :=
      (hreach.orderly.node i n hn).term.trans_lt (h.node i n hn)
    exact ⟨ranged_boot hstore hboot, trivial⟩
  dial := fun _ _ pk _ _ _ h _ hpk _ _ _ => h.packet pk (List.mem_of_getElem? hpk)
  answer := by
    intro c i call success n n' _ h _ hn hanswer
    obtain ⟨calls, rfl⟩ := Node.answer_frame hanswer
    exact h.node i n hn

end Cluster

theorem Store.Reads.ofDisk (h : Store.Reads jsonEntries db store) :
    Store.ofDisk db = some store := by
  simp only [Store.ofDisk, h.state, h.log, Go.Coder.fromUTF8_toUTF8, Option.bind_eq_bind,
    Option.bind_some]
  rfl

namespace OnDisk

def Agrees (d : OnDisk) : Prop :=
  ∀ i n, d.cluster.node i = some n → Store.Reads jsonEntries (d.disk i) n.store

theorem start_eq (w : World) : start w =
    (Cluster.start w).map fun c => { cluster := c, disk := fun _ => KeyValue.Table.empty } := by
  have hboot : ∀ i, w.bootDisk i KeyValue.Table.empty = w.boot i {} := by
    intro i
    rw [World.bootDisk, (Store.Reads.empty jsonEntries).ofDisk, Option.bind_some]
  simp only [start, Cluster.start, hboot, Option.map_eq_bind]
  rfl

theorem start_agrees (h : start w = some d) : d.Agrees := by
  rw [start_eq] at h
  obtain ⟨c, hstart, rfl⟩ := Option.map_eq_some_iff.mp h
  have hstore : ∀ i n, c.node i = some n → n.store = {} := by
    refine Cluster.start_induction (P := fun c => ∀ i n, c.node i = some n → n.store = {}) ?_ ?_
      hstart
    · intro i n hn
      cases hn
    · intro c j m _ hboot ih i n hn
      by_cases hij : i = j
      · subst hij
        simp only [Cluster.setNode, Function.update_self] at hn
        cases hn
        obtain ⟨peerAddrs, rfl⟩ := World.boot_eq hboot
        rfl
      · simp only [Cluster.setNode, Function.update_of_ne hij] at hn
        exact ih i n hn
  intro i n hn
  rw [hstore i n hn]
  exact .empty _

theorem Agrees.completed (hagrees : d.Agrees) (hn : d.cluster.node i = some n)
    (hstore : n'.store = n.store) (hterm : n'.raft.currentTerm < uint64Size)
    (via : Option (Nat × Packet)) :
    Agrees { cluster := d.cluster.completed i n' via
             disk := Function.update d.disk i (n'.persistDisk (d.disk i)) } := by
  intro j m hm
  by_cases hji : j = i
  · subst hji
    have hself : (d.cluster.completed j n' via).node j = some (n'.release true).1 :=
      Function.update_self ..
    cases hself.symm.trans hm
    simp only [Function.update_self]
    have hread : Store.Reads jsonEntries (d.disk j) n'.store := hstore ▸ hagrees j n hn
    exact hread.saveState hterm n'.raft.votedFor
  · have hother : (d.cluster.completed i n' via).node j = d.cluster.node j :=
      Function.update_of_ne hji ..
    simp only [Function.update_of_ne hji]
    exact hagrees j m (hother.symm.trans hm)

theorem Agrees.step_cluster (hagrees : d.Agrees) (e : Event) :
    (d.step w e).map cluster = d.cluster.step w e := by
  cases e with
  | handle i stimulus =>
    simp only [step, Cluster.step, Option.bind_eq_bind]
    cases hn : d.cluster.node i with
    | none => rfl
    | some n =>
      simp only [Option.bind_some]
      cases hinput : d.cluster.input i stimulus with
      | none => rfl
      | some pair =>
        simp only [Option.bind_some]
        split
        · rfl
        · cases hact : n.act w.env pair.1 with
          | none => rfl
          | some n' => rfl
  | crash i during =>
    simp only [step, Cluster.step, Option.bind_eq_bind]
    cases hn : d.cluster.node i with
    | none => rfl
    | some n =>
      have hboot : w.bootDisk i (d.disk i) = w.boot i n.store := by
        rw [World.bootDisk, (hagrees i n hn).ofDisk, Option.bind_some]
      simp only [Option.bind_some, hboot]
      cases during with
      | none => cases w.boot i n.store <;> rfl
      | some stimulus =>
        simp only
        cases d.cluster.input i stimulus with
        | none => rfl
        | some pair =>
          simp only [Option.bind_some]
          cases n.act w.env pair.1 with
          | none => rfl
          | some n' => cases w.boot i n.store <;> rfl
  | dial k =>
    simp only [step, Option.bind_eq_bind]
    cases d.cluster.step w (.dial k) <;> rfl
  | answer i call success =>
    simp only [step, Option.bind_eq_bind]
    cases d.cluster.step w (.answer i call success) <;> rfl

theorem Agrees.setNode (hagrees : d.Agrees) (hn : d.cluster.node i = some n)
    (hboot : w.bootDisk i (d.disk i) = some n') {c : Cluster} (hnode : c.node = d.cluster.node) :
    Agrees { d with cluster := c.setNode i n' } := by
  rw [World.bootDisk, (hagrees i n hn).ofDisk, Option.bind_some] at hboot
  intro j m hm
  by_cases hji : j = i
  · subst hji
    simp only [Cluster.setNode, Function.update_self] at hm
    cases hm
    obtain ⟨peerAddrs, rfl⟩ := World.boot_eq hboot
    exact hagrees j n hn
  · simp only [Cluster.setNode, Function.update_of_ne hji, hnode] at hm
    exact hagrees j m hm

theorem Agrees.step (hreach : Cluster.Reach w ok d.cluster) (hagrees : d.Agrees) {e : Event}
    (hok : ok d.cluster e) (h : d.step w e = some d') : d'.Agrees := by
  have hcluster : d.cluster.step w e = some d'.cluster := by
    rw [← hagrees.step_cluster e, h, Option.map_some]
  have hranged := (Cluster.ranged_kept w ok).step hreach ((Cluster.ranged_kept w ok).reach hreach)
    hok hcluster
  cases e with
  | handle i stimulus =>
    obtain ⟨n, hn, h⟩ := Option.bind_eq_some_iff.mp h
    obtain ⟨⟨input, via⟩, hinput, h⟩ := Option.bind_eq_some_iff.mp h
    simp only at h
    split at h
    · cases h
      exact hagrees
    · obtain ⟨n', hact, h⟩ := Option.bind_eq_some_iff.mp h
      cases h
      obtain ⟨-, -, hstore, -⟩ := Cluster.acted_sends hreach.orderly hn hinput hact
      have hself : (d.cluster.completed i n' via).node i = some (n'.release true).1 :=
        Function.update_self ..
      have hterm : n'.raft.currentTerm < uint64Size := hranged.node i (n'.release true).1 hself
      exact hagrees.completed hn hstore hterm via
  | crash i during =>
    obtain ⟨n, hn, h⟩ := Option.bind_eq_some_iff.mp h
    cases during with
    | none =>
      obtain ⟨c, hc, h⟩ := Option.bind_eq_some_iff.mp h
      cases hc
      obtain ⟨n', hboot, h⟩ := Option.bind_eq_some_iff.mp h
      cases h
      exact hagrees.setNode hn hboot rfl
    | some stimulus =>
      obtain ⟨pair, -, h⟩ := Option.bind_eq_some_iff.mp h
      obtain ⟨interrupted, -, h⟩ := Option.bind_eq_some_iff.mp h
      obtain ⟨c, hc, h⟩ := Option.bind_eq_some_iff.mp h
      cases hc
      obtain ⟨n', hboot, h⟩ := Option.bind_eq_some_iff.mp h
      cases h
      exact hagrees.setNode hn hboot rfl
  | dial k =>
    obtain ⟨c, hc, h⟩ := Option.bind_eq_some_iff.mp h
    cases h
    obtain ⟨pk, m, dest, -, -, -, -, rfl⟩ := Cluster.step_dial hc
    exact hagrees
  | answer i call success =>
    obtain ⟨c, hc, h⟩ := Option.bind_eq_some_iff.mp h
    cases h
    obtain ⟨n, n', hn, hanswer, rfl⟩ := Cluster.step_answer hc
    obtain ⟨calls, rfl⟩ := Node.answer_frame hanswer
    intro j m hm
    by_cases hji : j = i
    · subst hji
      simp only [Function.update_self] at hm
      cases hm
      exact hagrees j n hn
    · simp only [Function.update_of_ne hji] at hm
      exact hagrees j m hm

theorem Reach.agrees (h : Reach w ok d) : Cluster.Reach w ok d.cluster ∧ d.Agrees := by
  induction h with
  | start h =>
    refine ⟨.start ?_, start_agrees h⟩
    rw [start_eq] at h
    obtain ⟨c, hstart, rfl⟩ := Option.map_eq_some_iff.mp h
    exact hstart
  | step _ hok hstep ih =>
    obtain ⟨hreach, hagrees⟩ := ih
    refine ⟨hreach.step hok ?_, hagrees.step hreach hok hstep⟩
    rw [← hagrees.step_cluster, hstep, Option.map_some]

theorem Reach.of_cluster (h : Cluster.Reach w ok c) : ∃ d, Reach w ok d ∧ d.cluster = c := by
  induction h with
  | start h =>
    refine ⟨{ cluster := _, disk := fun _ => KeyValue.Table.empty }, .start ?_, rfl⟩
    rw [start_eq, h, Option.map_some]
  | @step c c' e _ hok hstep ih =>
    obtain ⟨d, hreach, rfl⟩ := ih
    rw [← hreach.agrees.2.step_cluster] at hstep
    obtain ⟨d', hd', rfl⟩ := Option.map_eq_some_iff.mp hstep
    exact ⟨d', hreach.step hok hd', rfl⟩

end OnDisk

/-- Nodes that come back from the bytes on their disks reach what nodes reach that come back from
the values they saved, and between handlers a disk reads as the term and the vote of its node. -/
theorem disk_runs_are_runs (w : World) (ok : Cluster → Event → Prop) (c : Cluster) :
    (Cluster.Reach w ok c ↔ ∃ disk, OnDisk.Reach w ok { cluster := c, disk }) ∧
    ∀ disk, OnDisk.Reach w ok { cluster := c, disk } → ∀ i n, c.node i = some n →
      (disk i).loadState = (n.raft.currentTerm, n.raft.votedFor.toUTF8.data.toList) ∧
      (disk i).loadLog jsonEntries = some [] := by
  refine ⟨⟨fun hreach => ?_, ?_⟩, ?_⟩
  · obtain ⟨⟨_, disk⟩, hdisk, rfl⟩ := OnDisk.Reach.of_cluster hreach
    exact ⟨disk, hdisk⟩
  · rintro ⟨disk, hreach⟩
    exact hreach.agrees.1
  · intro disk hreach i n hn
    obtain ⟨hcluster, hagrees⟩ := hreach.agrees
    have hread := hagrees i n hn
    have hhoused := hcluster.orderly.node i n hn
    rw [← hhoused.term, ← hhoused.vote]
    refine ⟨hread.state, ?_⟩
    have hlog := hread.log
    rwa [hhoused.log] at hlog

/-- A crash in the middle of a tick: term 2 is on record, and term 1 on the disk. -/
theorem disk_runs_are_runs_cut_off :
    ∃ c disk, OnDisk.Reach (mesh ["a", "b", "c"] 1 1) (fun _ _ => True) { cluster := c, disk } ∧
      (∃ seen ∈ c.hist, seen.1 = "b" ∧ seen.2.currentTerm = 2) ∧
      (disk "b").loadState = (1, "a".toUTF8.data.toList) := by
  obtain ⟨c, hreach, hseen, n, hn, hterm, hvote⟩ :
      ∃ c, Cluster.Reach (mesh ["a", "b", "c"] 1 1) (fun _ _ => True) c ∧
        (∃ seen ∈ c.hist, seen.1 = "b" ∧ seen.2.currentTerm = 2) ∧
        ∃ n ∈ c.node "b", n.raft.currentTerm = 1 ∧ n.raft.votedFor = "a" :=
    Reachable.of_any
      [.handle "a" .tick, .dial 0, .handle "b" (.packet 2), .crash "b" (some .tick)] rfl
  obtain ⟨hruns, hstate⟩ := disk_runs_are_runs (mesh ["a", "b", "c"] 1 1) (fun _ _ => True) c
  obtain ⟨disk, hdisk⟩ := hruns.mp hreach
  have hread := (hstate disk hdisk "b" n hn).1
  rw [hterm, hvote] at hread
  exact ⟨c, disk, hdisk, hseen, hread⟩

end Phalanx
