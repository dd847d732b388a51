import Mathlib.Logic.Relation
import Phalanx.Consensus.Completeness

/-! Runs of the protocol. What was sent stays sent and what a leader wrote stays
written (`Grows`), and the invariants of the other modules hold along every run
(`Safe`). The last two need that a node loses no log when it crashes. -/
namespace Phalanx.Consensus

variable {ι ε : Type}
variable {key : ε → Nat} {Q C : Nat → Finset ι → Prop} {mayCrash : State ι ε → ι → Prop}
variable {s s' s'' : State ι ε}

structure Grows (s s' : State ι ε) : Prop where
  requests : s.requests ⊆ s'.requests
  grants : s.grants ⊆ s'.grants
  appends : s.appends ⊆ s'.appends
  acks : s.acks ⊆ s'.acks
  reign : ∀ t r, s.reign t = some r → ∃ r', s'.reign t = some r' ∧ r'.leader = r.leader ∧
    r'.voters = r.voters ∧ r'.base = r.base ∧ r.log <+: r'.log

theorem Grows.refl (s : State ι ε) : Grows s s where
  requests := subset_rfl
  grants := subset_rfl
  appends := subset_rfl
  acks := subset_rfl
  reign := fun _ r hr => ⟨r, hr, rfl, rfl, rfl, List.prefix_refl _⟩

theorem Grows.trans (h : Grows s s') (h' : Grows s' s'') : Grows s s'' where
  requests := h.requests.trans h'.requests
  grants := h.grants.trans h'.grants
  appends := h.appends.trans h'.appends
  acks := h.acks.trans h'.acks
  reign := by
    intro t r hr
    obtain ⟨r₁, hr₁, hleader, hvoters, hbase, hlog⟩ := h.reign t r hr
    obtain ⟨r₂, hr₂, hleader', hvoters', hbase', hlog'⟩ := h'.reign t r₁ hr₁
    exact ⟨r₂, hr₂, hleader'.trans hleader, hvoters'.trans hvoters, hbase'.trans hbase,
      hlog.trans hlog'⟩

theorem Grows.ledger (h : Grows s s') (t : Nat) : s.ledger t <+: s'.ledger t := by
  cases hr : s.reign t with
  | none =>
    rw [ledger_nil hr]
    exact List.nil_prefix
  | some r =>
    obtain ⟨r', hr', -, -, -, hlog⟩ := h.reign t r hr
    rw [ledger_eq hr, ledger_eq hr']
    exact hlog

/-- Nothing that was said before crashes are ruled out needs more than this. -/
def NoLoss (mayCrash : State ι ε → ι → Prop) : Prop :=
  ∀ s i, mayCrash s i → (s.peer i).log = []

/-- An acknowledgement covers the first entry that the leader of its term wrote. -/
def Reaching (s : State ι ε) : Prop :=
  ∀ a ∈ s.acks, ∃ r, s.reign a.term = some r ∧ r.base.length < a.index

structure Safe (key : ε → Nat) (Q C : Nat → Finset ι → Prop) (mayCrash : State ι ε → ι → Prop)
    (s : State ι ε) : Prop where
  votes : Votes key Q mayCrash s
  logs : Logs key s
  kept : NoLoss mayCrash → Kept s
  commits : NoLoss mayCrash → Commits key C s
  reaching : Reaching s

theorem Safe.init {peer : ι → Peer ι ε} (hrole : ∀ i, (peer i).role = .follower)
    (hlog : ∀ i, (peer i).log = []) (hcommit : ∀ i, (peer i).commit = 0) :
    Safe key Q C mayCrash (State.init peer) where
  votes := .init hrole
  logs := .init hrole hlog
  kept := fun _ => .init
  commits := fun _ => .init hcommit
  reaching := by simp [Reaching, State.init]

def Peer.Keeps (p p' : Peer ι ε) : Prop :=
  p.commit ≤ p'.commit ∧ p.log.take p.commit <+: p'.log

theorem Peer.Keeps.of_log {p p' : Peer ι ε} (hcommit : p.commit ≤ p'.commit)
    (hlog : p.log <+: p'.log) : p.Keeps p' :=
  ⟨hcommit, (List.take_prefix _ _).trans hlog⟩

theorem Peer.Keeps.refl (p : Peer ι ε) : p.Keeps p := .of_log le_rfl (List.prefix_refl _)

theorem Peer.Keeps.trans {p p' p'' : Peer ι ε} (h : p.Keeps p') (h' : p'.Keeps p'') :
    p.Keeps p'' := by
  refine ⟨h.1.trans h'.1, List.IsPrefix.trans ?_ h'.2⟩
  rw [List.prefix_take_iff]
  exact ⟨h.2, (List.length_take_le _ _).trans h.1⟩

variable [DecidableEq ι]

theorem Step.grows (hv : Votes key Q mayCrash s) (hmeet : ∀ t, Meet (Q t) (Q t))
    (hstep : Step key Q C mayCrash s s') : Grows s s' := by
  have hsame : ∀ t r, s.reign t = some r → ∃ r', s.reign t = some r' ∧ r'.leader = r.leader ∧
      r'.voters = r.voters ∧ r'.base = r.base ∧ r.log <+: r'.log := (Grows.refl s).reign
  cases hstep with
  | timeout i => exact ⟨Set.subset_insert _ _, subset_rfl, subset_rfl, subset_rfl, hsame⟩
  | observe i term active hterm =>
    exact ⟨subset_rfl, subset_rfl, subset_rfl, subset_rfl, hsame⟩
  | grant i c l hreq hne hvote hidle hlog =>
    exact ⟨subset_rfl, Set.subset_insert _ _, subset_rfl, subset_rfl, hsame⟩
  | win i S e hrole hQ hself hvotes hkey =>
    refine ⟨subset_rfl, subset_rfl, subset_rfl, Set.subset_insert _ _, ?_⟩
    intro t r hr
    have hne : t ≠ (s.peer i).term := by
      rintro rfl
      rw [hv.no_reign hmeet hrole hQ hvotes] at hr
      cases hr
    exact ⟨r, by simpa [State.append, hne] using hr, rfl, rfl, rfl, List.prefix_refl _⟩
  | extend i r e hrole hreign hkey =>
    refine ⟨subset_rfl, subset_rfl, subset_rfl, Set.subset_insert _ _, ?_⟩
    intro t r' hr'
    by_cases ht : t = (s.peer i).term
    · subst ht
      rw [hreign] at hr'
      cases hr'
      refine ⟨{ r with tail := r.tail ++ [e] }, by simp [State.append], rfl, rfl, rfl, ?_⟩
      simp only [Reign.log, ← List.append_assoc]
      exact List.prefix_append _ _
    · exact ⟨r', by simpa [State.append, ht] using hr', rfl, rfl, rfl, List.prefix_refl _⟩
  | send i hrole => exact ⟨subset_rfl, subset_rfl, Set.subset_insert _ _, subset_rfl, hsame⟩
  | heed i a ha hterm hself =>
    exact ⟨subset_rfl, subset_rfl, subset_rfl, subset_rfl, hsame⟩
  | accept i a p ha hterm hrole hactive hprev =>
    exact ⟨subset_rfl, subset_rfl, subset_rfl, Set.subset_insert _ _, hsame⟩
  | commit i n S e hrole hn hentry hkey hC hacks =>
    exact ⟨subset_rfl, subset_rfl, subset_rfl, subset_rfl, hsame⟩
  | crash i hcrash => exact ⟨subset_rfl, subset_rfl, subset_rfl, subset_rfl, hsame⟩

theorem Reaching.step (h : Reaching s) (hl : Logs key s) (hv : Votes key Q mayCrash s)
    (hmeet : ∀ t, Meet (Q t) (Q t)) (hstep : Step key Q C mayCrash s s') : Reaching s' := by
  have hgrows := hstep.grows hv hmeet
  have hold : ∀ a ∈ s.acks, ∃ r, s'.reign a.term = some r ∧ r.base.length < a.index := by
    intro a ha
    obtain ⟨r, hr, hlt⟩ := h a ha
    obtain ⟨r', hr', -, -, hbase, -⟩ := hgrows.reign _ r hr
    exact ⟨r', hr', hbase ▸ hlt⟩
  cases hstep with
  | win i S e hrole hQ hself hvotes hkey =>
    intro a ha
    rcases ha with rfl | ha
    · exact ⟨_, Function.update_self _ _ _, Nat.lt_succ_self _⟩
    · exact hold a ha
  | extend i r e hrole hreign hkey =>
    intro a ha
    rcases ha with rfl | ha
    · refine ⟨_, Function.update_self _ _ _, ?_⟩
      have hlen := congrArg List.length (hl.leaderLog i hrole)
      rw [ledger_eq hreign, Reign.log, List.length_append] at hlen
      simp only
      omega
    · exact hold a ha
  | accept i a p ha hterm hrole hactive hprev =>
    intro b hb
    rcases hb with rfl | hb
    · obtain ⟨r, hr, -, hlt⟩ := hl.appendLog a ha
      obtain ⟨-, hsent, -⟩ := hl.accept_log hv ha hterm hprev rfl
      exact ⟨r, hterm ▸ hr, hlt.trans_le hsent.length_le⟩
    · exact hold b hb
  | _ => exact hold

theorem Safe.step (h : Safe key Q C mayCrash s) (hQ : ∀ t, Meet (Q t) (Q t))
    (hC : ∀ t t', Meet (C t) (Q t')) (hstep : Step key Q C mayCrash s s') :
    Safe key Q C mayCrash s' where
  votes := h.votes.step hQ hstep
  logs := h.logs.step h.votes hQ hstep
  kept := fun hloss => (h.kept hloss).step h.logs h.votes hQ hloss hstep
  commits := fun hloss =>
    (h.commits hloss).step (h.kept hloss) h.logs h.votes hQ hC hstep
  reaching := h.reaching.step h.logs h.votes hQ hstep

abbrev Steps (key : ε → Nat) (Q C : Nat → Finset ι → Prop)
    (mayCrash : State ι ε → ι → Prop) : State ι ε → State ι ε → Prop :=
  Relation.ReflTransGen (Step key Q C mayCrash)

theorem Safe.steps (h : Safe key Q C mayCrash s) (hQ : ∀ t, Meet (Q t) (Q t))
    (hC : ∀ t t', Meet (C t) (Q t')) (hsteps : Steps key Q C mayCrash s s') :
    Safe key Q C mayCrash s' ∧ Grows s s' := by
  induction hsteps with
  | refl => exact ⟨h, .refl s⟩
  | tail _ hstep ih =>
    exact ⟨ih.1.step hQ hC hstep, ih.2.trans (hstep.grows ih.1.votes hQ)⟩

theorem Safe.step_keeps (h : Safe key Q C mayCrash s) (hC : ∀ t t', Meet (C t) (Q t'))
    (hcrash : ∀ s i, ¬ mayCrash s i) (hstep : Step key Q C mayCrash s s') (j : ι) :
    (s.peer j).Keeps (s'.peer j) := by
  have hloss : NoLoss mayCrash := fun s i hmay => absurd hmay (hcrash s i)
  have hset : ∀ {i : ι} {p : Peer ι ε}, (s.peer i).Keeps p →
      (s.peer j).Keeps ((s.setPeer i p).peer j) := by
    intro i p hp
    exact State.setPeer_forall (P := fun j p => (s.peer j).Keeps p) hp (fun _ => .refl _) j
  have happend : ∀ {i : ι} {p : Peer ι ε} {r : Reign ι ε} {e : ε}, p.log = (s.peer i).log →
      p.commit = (s.peer i).commit → (s.peer j).Keeps ((s.append i p r e).peer j) := by
    intro i p r e hlog hcommit
    apply hset
    exact .of_log hcommit.ge (hlog ▸ List.prefix_append _ _)
  cases hstep with
  | timeout i => exact hset (.of_log le_rfl (List.prefix_refl _))
  | observe i term active hterm => exact hset (.of_log le_rfl (List.prefix_refl _))
  | grant i c l hreq hne hvote hidle hlog => exact hset (.of_log le_rfl (List.prefix_refl _))
  | win i S e hrole hQ hself hvotes hkey => exact happend rfl rfl
  | extend i r e hrole hreign hkey => exact happend rfl rfl
  | send i hrole => exact .refl _
  | heed i a ha hterm hself => exact hset (.of_log le_rfl (List.prefix_refl _))
  | accept i a p ha hterm hrole hactive hprev =>
    obtain ⟨hcase, -, -⟩ := h.logs.accept_log h.votes ha hterm hprev rfl
    have hcommits := h.commits hloss
    refine hset ⟨?_, hcommits.accept_keeps (h.kept hloss) h.logs h.votes hC ha hterm hcase⟩
    simp only
    split
    next hlt =>
      rw [Nat.min_eq_left (hcommits.appendCommit a ha).1]
      exact hlt.le
    next => exact le_rfl
  | commit i n S e hrole hn hentry hkey hC hacks => exact hset (.of_log hn.le (List.prefix_refl _))
  | crash i hmay => exact absurd hmay (hcrash s i)

theorem Safe.steps_keeps (h : Safe key Q C mayCrash s) (hQ : ∀ t, Meet (Q t) (Q t))
    (hC : ∀ t t', Meet (C t) (Q t')) (hcrash : ∀ s i, ¬ mayCrash s i)
    (hsteps : Steps key Q C mayCrash s s') (j : ι) : (s.peer j).Keeps (s'.peer j) := by
  induction hsteps with
  | refl => exact .refl _
  | tail hsteps hstep ih =>
    exact ih.trans ((h.steps hQ hC hsteps).1.step_keeps hC hcrash hstep j)

end Phalanx.Consensus
