import Phalanx.Safety.Election

/-! The logs of a static cluster: they match, and a leader only appends to its own.
Both survive crashes, after which a log is empty. -/
namespace Phalanx

open Consensus Go Raft

variable {w : World} {c : Cluster} {r r' : Raft}

namespace Raft

variable {inbox : Message → Prop} {clock : Nat → Prop} {term : Nat} {log : List LogEntry}

/-- Whoever still leads `term` has `log`, and nobody can come to lead it any more. -/
structure Loyal (term : Nat) (log : List LogEntry) (r : Raft) : Prop where
  leader : r.state = .leader → r.currentTerm = term → log <+: r.log
  candidate : r.state = .candidate → r.currentTerm ≠ term
  reached : term ≤ r.currentTerm

theorem Move.loyal (hbound : ∀ t, clock t → t < uint64Size - 1) (h : Loyal term log r)
    (hmove : Move inbox clock r r') : Loyal term log r' := by
  cases hmove with
  | stand hstate hclock =>
    have hsucc : succ64 r.currentTerm = r.currentTerm + 1 :=
      Nat.mod_eq_of_lt (by have := hbound _ hclock; omega)
    have hreached := h.reached
    refine ⟨fun hlead => (by cases hlead), fun _ => ?_, ?_⟩
    · change succ64 r.currentTerm ≠ term
      omega
    · change term ≤ succ64 r.currentTerm
      omega
  | win hstate =>
    exact ⟨fun _ hterm => absurd hterm (h.candidate hstate), fun hno => (by cases hno), h.reached⟩
  | broadcast _ _ hout =>
    obtain ⟨out, -, rfl⟩ := broadcastHeartbeat_eq hout
    exact ⟨h.leader, h.candidate, h.reached⟩
  | observe msg hin hterm =>
    have hreached := h.reached
    exact ⟨fun hno => (by cases hno), fun hno => (by cases hno), by change term ≤ msg.term; omega⟩
  | heed msg hin htype hterm =>
    have hstate := heeding_state r msg
    refine ⟨fun hno => ?_, fun hno => ?_, ?_⟩
    · rw [hstate] at hno
      cases hno
    · rw [hstate] at hno
      cases hno
    · unfold heeding
      split
      · exact h.reached
      · change term ≤ msg.term
        rw [hterm]
        exact h.reached
  | accept msg entries hin htype hterm hstate =>
    rw [accepting_eq]
    refine ⟨fun hno => ?_, h.candidate, h.reached⟩
    change r.state = .leader at hno
    rw [hstate] at hno
    cases hno
  | extend data matchIndex hstate hmatch =>
    exact ⟨fun hlead hterm => (h.leader hlead hterm).trans (List.prefix_append _ _), h.candidate,
      h.reached⟩
  | _ => exact ⟨h.leader, h.candidate, h.reached⟩

theorem Moves.loyal (hbound : ∀ t, clock t → t < uint64Size - 1) (h : Loyal term log r)
    (hmoves : Moves inbox clock r r') : Loyal term log r' := by
  induction hmoves with
  | refl => exact h
  | tail _ hmove ih => exact hmove.loyal hbound ih

end Raft

theorem Refines.matching {mayCrash : Protocol → String → Prop} {s : Protocol} {i j : String}
    {n m : Node} (h : Refines mayCrash w c s) (hn : c.node i = some n) (hm : c.node j = some m)
    {e e' : LogEntry} (he : e ∈ n.raft.log) (he' : e' ∈ m.raft.log) (hindex : e.index = e'.index)
    (hterm : e.term = e'.term) :
    e = e' ∧ n.raft.log.take e.index = m.raft.log.take e.index := by
  have hsound := h.safe.logs.peerSound i
  have hsound' := h.safe.logs.peerSound j
  rw [(h.node i n hn).tracks.log] at hsound
  rw [(h.node j m hm).tracks.log] at hsound'
  obtain ⟨k, hk⟩ := List.getElem?_of_mem he
  obtain ⟨k', hk'⟩ := List.getElem?_of_mem he'
  have hat := (h.node i n hn).tracks.indexed k e hk
  have hat' := (h.node j m hm).tracks.indexed k' e' hk'
  have hsame : k' = k := by omega
  subst hsame
  have htake := hsound.take_eq hsound' hk hk' hterm
  rw [hat]
  refine ⟨?_, htake⟩
  have hboth := congrArg (fun l => l[k']?) htake
  simp only [List.getElem?_take_of_lt (Nat.lt_succ_self k'), hk, hk'] at hboth
  exact Option.some.inj hboth

theorem log_matching_append_only (hstatic : Static w)
    (hreach : Cluster.Reach w (fun _ e => e.joinless = true) c) (hbelow : c.TermsBelow) :
    (∀ i j n m, i ≠ j → c.node i = some n → c.node j = some m →
      ∀ e ∈ n.raft.log, ∀ e' ∈ m.raft.log, e.index = e'.index → e.term = e'.term →
        e = e' ∧ n.raft.log.take e.index = m.raft.log.take e.index) ∧
    ∀ i n stimulus input via n', c.node i = some n → stimulus.isJoin = false →
      c.input i stimulus = some (input, via) → n.act w.env input = some n' →
      n.raft.state = .leader → n'.raft.state = .leader →
      n'.raft.currentTerm = n.raft.currentTerm → n.raft.log <+: n'.raft.log := by
  have horderly := hreach.orderly
  refine ⟨?_, ?_⟩
  · intro i j n m hne hn hm e he e' he'
    have hmany : 1 < w.members.length := by
      have hcard : w.members.toFinset.card ≤ w.members.length := List.toFinset_card_le _
      have hone : 1 < w.members.toFinset.card := Finset.one_lt_card.mpr
        ⟨i, List.mem_toFinset.mpr (horderly.node i n hn).member,
          j, List.mem_toFinset.mpr (horderly.node j m hm).member, hne⟩
      omega
    have hrefines : ∃ s, Refines (fun _ _ => True) w c s := by
      apply refines_of_reach hstatic (fun _ _ h => h) _ hreach hbelow
      exact fun c e s hjoin _ hs => hs.crash_sound hmany hstatic hjoin
    obtain ⟨s, hs⟩ := hrefines
    exact hs.matching hn hm he he'
  · intro i n stimulus input via n' hn hjoin hinput hact hlead hlead' hterm
    obtain ⟨⟨r₁, lastApplied, hmoves, hraft⟩, -⟩ :=
      Cluster.acted_moves horderly hinput (no_join hjoin hinput) hact
    have hbound : ∀ t, input = .tick ∧ t = n.raft.currentTerm → t < uint64Size - 1 := by
      rintro t ⟨-, rfl⟩
      exact hbelow _ (horderly.node i n hn).now
    have hstart : Loyal n.raft.currentTerm n.raft.log n.raft :=
      ⟨fun _ _ => List.prefix_refl _, fun hno => by simp [hlead] at hno, le_rfl⟩
    rw [hraft] at hlead' hterm ⊢
    exact (hmoves.loyal hbound hstart).leader hlead' hterm

/-- A leads, B has its first entry, and A is about to propose. -/
theorem log_matching_append_only_proposal :
    ∃ c, Cluster.Reach (mesh ["a", "b", "c"] 1 1) (fun _ e => e.joinless = true) c ∧
      ∃ n ∈ c.node "a", ∃ m ∈ c.node "b",
        ∃ n' ∈ n.act (mesh ["a", "b", "c"] 1 1).env (.propose [7]),
        n.raft.log.take 1 = m.raft.log.take 1 ∧ n.raft.log <+: n'.raft.log ∧
        n.raft.log.length = 1 ∧ n'.raft.log.length = 2 := by
  obtain ⟨c, hreach, hbelow, n, hn, m, hm, n', hact, hlog, hlog', hlead, hlead', hsame, hmore⟩ :
      ∃ c, Cluster.Reach (mesh ["a", "b", "c"] 1 1) (fun _ e => e.joinless = true) c ∧
        c.TermsBelow ∧ ∃ n ∈ c.node "a", ∃ m ∈ c.node "b",
        ∃ n' ∈ n.act (mesh ["a", "b", "c"] 1 1).env (.propose [7]),
        n.raft.log = [{ index := 1, term := 1 }] ∧ m.raft.log = [{ index := 1, term := 1 }] ∧
        n.raft.state = .leader ∧ n'.raft.state = .leader ∧
        n'.raft.currentTerm = n.raft.currentTerm ∧ n'.raft.log.length = 2 :=
    Reachable.of_any
      [.handle "a" .tick, .dial 0, .handle "b" (.packet 2), .handle "a" (.packet 3), .dial 4,
        .handle "b" (.packet 6)] rfl
  obtain ⟨hmatch, happend⟩ := log_matching_append_only
    (mesh_static (by decide) (by decide) 1 1) hreach hbelow
  have hentry : ∀ {l : List LogEntry}, l = [{ index := 1, term := 1 }] →
      ({ index := 1, term := 1 } : LogEntry) ∈ l := fun h => h ▸ List.mem_singleton_self _
  exact ⟨c, hreach, n, hn, m, hm, n', hact,
    (hmatch "a" "b" n m (by decide) hn hm _ (hentry hlog) _ (hentry hlog') rfl rfl).2,
    happend "a" n (.propose [7]) (.propose [7]) none n' hn rfl rfl hact hlead hlead' hsame,
    by rw [hlog]; rfl, hmore⟩

end Phalanx
