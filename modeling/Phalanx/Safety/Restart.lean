import Phalanx.Safety.Election

/-! Committed entries and restarts. Nothing ever writes the log to the store, so a
node that restarts has forgotten every entry it acknowledged, and a leader may be
elected without an entry that was committed. Where every crash finds in memory what
the store would give back, every later leader has what earlier leaders committed. -/
namespace Phalanx

open Consensus Go Raft

variable {w : World} {c : Cluster} {s : Protocol} {i j : String} {n n' : Node} {r r' : Raft}

/-- Whenever a node crashes, the log it has in memory is the one in its store. -/
def Cluster.Durable (w : World) (c : Cluster) : Event → Prop
  | .crash i none => ∀ n ∈ c.node i, n.raft.log = n.store.loadLog
  | .crash i (some stimulus) => ∀ n ∈ c.node i, ∀ call ∈ c.input i stimulus,
      ∀ n' ∈ n.act w.env call.1, n'.raft.log = n.store.loadLog
  | _ => True

instance (w : World) (c : Cluster) (e : Event) : Decidable (c.Durable w e) := by
  unfold Cluster.Durable
  split <;> infer_instance

theorem Raft.Move.log_nil {inbox : Message → Prop} {clock : Nat → Prop}
    (hmove : Move inbox clock r r') (h : r'.log = []) : r.log = [] := by
  cases hmove with
  | win => exact absurd h (by simp [crowned])
  | broadcast _ _ hout =>
    obtain ⟨out, -, rfl⟩ := broadcastHeartbeat_eq hout
    exact h
  | heed msg =>
    unfold heeding at h
    split at h <;> exact h
  | accept msg log _ _ _ _ _ _ hlog =>
    rw [accepting_eq] at h
    change log = [] at h
    rw [h] at hlog
    exact appendLoop_nil hlog
  | extend => exact absurd h (by simp)
  | _ => exact h

theorem Raft.Moves.log_nil {inbox : Message → Prop} {clock : Nat → Prop}
    (hmoves : Moves inbox clock r r') (h : r'.log = []) : r.log = [] := by
  induction hmoves with
  | refl => exact h
  | tail _ hmove ih => exact ih (hmove.log_nil h)

theorem Ruled.log_ne_nil {mayCrash : Protocol → String → Prop} (h : Ruled mayCrash w s i r)
    (hlead : r.state = .leader) : r.log ≠ [] := by
  obtain ⟨k, -, -, -, hlen, -⟩ := h hlead
  intro hnil
  rw [hnil] at hlen
  cases hlen

/-- The protocol in which a node crashes only while its log is empty. -/
def mayRestart (s : Protocol) (i : String) : Prop := (s.peer i).log = []

private theorem crashSound_of_nil (hleader : r'.state = .leader → r'.log ≠ [])
    (hback : r'.log = [] → r.log = []) (hnil : r'.log = []) : CrashSound mayRestart i r r' := by
  refine ⟨fun hlead => absurd hnil (hleader hlead), fun _ s hpeer => ?_⟩
  unfold mayRestart
  rw [hpeer]
  exact hback hnil

theorem Refines.crash_durable (hstatic : Static w) (h : Refines mayRestart w c s)
    (hbelow : c.TermsBelow) {e : Event} (hjoin : e.joinless = true) (hdurable : c.Durable w e) :
    CrashAllowed mayRestart w c e := by
  cases e with
  | crash i during =>
    cases during with
    | none =>
      intro n hn
      apply crashSound_of_nil (h.hist _ (h.now i n hn)).log_ne_nil id
      exact (hdurable n hn).trans (h.node i n hn).log
    | some stimulus =>
      intro n input via n' hn hinput hact
      have hstimulus : stimulus.isJoin = false := by simpa [Event.joinless] using hjoin
      obtain ⟨⟨s', hsteps, -, htracks⟩, -⟩ := h.acted hstatic hbelow hstimulus hn hinput hact
      have hsafe := (h.safe.steps (fun t => quorums_meet _ t t) (quorums_meet _) hsteps).1
      have hacted : (∃ r₁ lastApplied, Moves (fun m => input.stepped n.id = some m)
          (fun _ => True) n.raft r₁ ∧ n'.raft = { r₁ with lastApplied }) ∧ Node.SameHost n n' :=
        Node.act_moves (no_join hstimulus hinput) (fun _ => trivial)
          (fun m hm => (h.deliverable hn hinput hm).1.1)
          (fun _ hm => Cluster.reply_of_input hinput hm) hact
      obtain ⟨⟨r₁, lastApplied, hmoves, hraft⟩, -⟩ := hacted
      apply crashSound_of_nil (htracks.ruled hsafe).log_ne_nil
      · intro hnil
        rw [hraft] at hnil
        exact hmoves.log_nil hnil
      · exact (hdurable n hn _ hinput n' hact).trans (h.node i n hn).log
  | _ => trivial

theorem committed_survives (hstatic : Static w)
    (hreach : Cluster.Reach w (fun c e => e.joinless = true ∧ c.Durable w e) c)
    (hbelow : c.TermsBelow) (hi : (i, r) ∈ c.hist) (hj : (j, r') ∈ c.hist)
    (hlead : r.state = .leader) (hlead' : r'.state = .leader)
    (hterm : r.currentTerm < r'.currentTerm) :
    r.commitIndex ≤ r.log.length ∧ r.log.take r.commitIndex <+: r'.log := by
  have hrefines : ∃ s, Refines mayRestart w c s := by
    apply refines_of_reach hstatic (fun _ _ h => h.1) _ hreach hbelow
    exact fun c e s hok hbelow hs => hs.crash_durable hstatic hbelow hok.1 hok.2
  obtain ⟨s, hs⟩ := hrefines
  have hloss : NoLoss mayRestart := fun _ _ h => h
  obtain ⟨k, -, -, -, -, -, hsettled⟩ := hs.hist _ hi hlead
  obtain ⟨k', hk', -, hbase, -⟩ := hs.hist _ hj hlead'
  refine ⟨(hsettled hloss).1, List.IsPrefix.trans ?_ hbase⟩
  exact (hs.safe.kept hloss).settled_base hs.safe.logs hs.safe.votes (quorums_meet _)
    (hsettled hloss) hterm hk'

/-- C restarts with nothing to lose, and B takes over from A after a commit. -/
theorem committed_survives_restart :
    ∃ c, Cluster.Reach (mesh ["a", "b", "c"] 1 1)
        (fun c e => e.joinless = true ∧ c.Durable (mesh ["a", "b", "c"] 1 1) e) c ∧
      ∃ seen ∈ c.hist, ∃ later ∈ c.hist, seen.2.commitIndex = 1 ∧ later.1 = "b" ∧
        later.2.currentTerm = 2 ∧ seen.2.log.take 1 <+: later.2.log := by
  obtain ⟨c, hreach, hbelow, seen, hseen, later, hlater, hcommit, hname, hlead, hlead', hterm,
    hterm'⟩ :
      ∃ c, Cluster.Reach (mesh ["a", "b", "c"] 1 1)
          (fun c e => e.joinless = true ∧ c.Durable (mesh ["a", "b", "c"] 1 1) e) c ∧
        c.TermsBelow ∧ ∃ seen ∈ c.hist, ∃ later ∈ c.hist, seen.2.commitIndex = 1 ∧
        later.1 = "b" ∧ seen.2.state = .leader ∧ later.2.state = .leader ∧
        seen.2.currentTerm = 1 ∧ later.2.currentTerm = 2 :=
    Reachable.of_any
      [.crash "c" none, .handle "a" .tick, .dial 0, .handle "b" (.packet 2),
        .handle "a" (.packet 3), .dial 4, .handle "b" (.packet 6), .handle "a" (.packet 7),
        .handle "b" .tick, .dial 9, .handle "c" (.packet 10), .handle "b" (.packet 11)] rfl
  have hsurvives := (committed_survives (mesh_static (by decide) (by decide) 1 1) hreach hbelow
    hseen hlater hlead hlead' (by omega)).2
  exact ⟨c, hreach, seen, hseen, later, hlater, hcommit, hname, hterm', hcommit ▸ hsurvives⟩

/-- A commits its first entry with B, B restarts, and C is elected by B without it. -/
theorem committed_entry_forgotten :
    ∃ c, Cluster.Reach (mesh ["a", "b", "c"] 1 1) (fun _ e => e.joinless = true) c ∧
      c.TermsBelow ∧ ∃ seen ∈ c.hist, ∃ later ∈ c.hist, seen.2.state = .leader ∧
        later.2.state = .leader ∧ seen.2.currentTerm < later.2.currentTerm ∧
        ¬ seen.2.log.take seen.2.commitIndex <+: later.2.log :=
  Reachable.of_any
    [.handle "a" .tick, .dial 0, .handle "b" (.packet 2), .handle "a" (.packet 3), .dial 4,
      .handle "b" (.packet 6), .handle "a" (.packet 7), .crash "b" none, .handle "c" .tick,
      .handle "c" .tick, .dial 11, .handle "b" (.packet 12), .handle "c" (.packet 13)] rfl

end Phalanx
