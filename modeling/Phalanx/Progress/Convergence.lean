import Phalanx.Progress.Replication
import Phalanx.Safety.Proposals

/-! From every state of a static cluster the nodes can be led to one log that all have committed
and applied, with nobody left to wait for an entry in it. -/
namespace Phalanx

open Consensus Go Raft

variable {w : World} {bound : Nat} {c c' : Cluster} {i p : String} {n n' m : Node}

/-! Calls that are still waited for. -/

/-- The channels that a node holds are for entries that it has not applied. -/
def Node.Pending (n : Node) : Prop :=
  ∀ k q, n.proposals.lookup k = some q → n.applied.length < k

theorem Node.lookup_foldl_applyEntry {env : Env} (entries : List LogEntry) (n : Node) {k q : Nat}
    (h : (entries.foldl (Node.applyEntry env) n).proposals.lookup k = some q) :
    n.proposals.lookup k = some q ∧ ∀ e ∈ entries, e.index ≠ k := by
  induction entries generalizing n with
  | nil => exact ⟨h, fun e he => (by cases he)⟩
  | cons entry rest ih =>
    obtain ⟨hone, hrest⟩ := ih _ h
    have hentry : n.proposals.lookup k = some q ∧ entry.index ≠ k := by
      unfold Node.applyEntry at hone
      cases hq : n.proposals.lookup entry.index with
      | none =>
        simp only [hq] at hone
        exact ⟨hone, fun heq => by rw [heq, hone] at hq; cases hq⟩
      | some p =>
        simp only [hq, GoMap.lookup_delete] at hone
        split at hone
        · cases hone
        next hne => exact ⟨hone, Ne.symm hne⟩
    refine ⟨hentry.1, fun e he => ?_⟩
    rcases List.mem_cons.mp he with rfl | he
    · exact hentry.2
    · exact hrest e he

theorem Node.Pending.apply {env : Env} {r : Raft} (h : n.Pending) (hindexed : Indexed r.log)
    (hle : r.lastApplied ≤ r.commitIndex) (hlen : r.commitIndex ≤ r.log.length)
    (happlied : n.applied = r.log.take r.lastApplied) :
    (({ n with raft := r } : Node).applyCommitted env).Pending := by
  intro k q hq
  obtain ⟨hold, hnone⟩ := Node.lookup_foldl_applyEntry _ _ hq
  have hbeyond : n.applied.length < k := h k q hold
  obtain ⟨-, -, -, -, hlist⟩ := Node.applyCommitted_frame env { n with raft := r }
  have hentries := applicableEntries_spec hle hlen
  rw [hlist]
  simp only [hentries, List.length_append, List.length_take, List.length_drop]
  rw [happlied, List.length_take] at hbeyond ⊢
  by_contra hno
  -- An entry of that index would have been among those applied.
  obtain ⟨e, he⟩ : ∃ e, r.log[k - 1]? = some e := ⟨_, List.getElem?_eq_getElem (by omega)⟩
  have hindex := hindexed _ e he
  refine hnone e ?_ (by omega)
  change e ∈ r.applicableEntries.1
  rw [hentries]
  apply List.mem_of_getElem? (i := k - 1 - r.lastApplied)
  rw [List.getElem?_take_of_lt (by omega), List.getElem?_drop, ← he]
  congr 1
  omega

namespace Cluster

def tallied : Invariant where
  node := fun _ _ n => n.Tallied ∧ n.Pending
  packet := fun _ _ => True
  seen := fun _ _ _ => True
  node_mono := fun _ h => h
  packet_mono := fun _ h => h
  seen_mono := fun _ h => h

theorem tallied_kept (hstatic : Static w) {ok : Cluster → Event → Prop}
    (hok : ∀ c e, ok c e → e.steady = true ∧ c.TermsBelow) : tallied.Kept w ok where
  boot := by
    intro c i n _ hboot
    obtain ⟨peerAddrs, rfl⟩ := World.boot_eq hboot
    refine ⟨⟨⟨fun k q hq => ?_, fun q call hcall => ?_⟩, fun k q hq => ?_⟩, trivial⟩
    · simp at hq
    · simp at hcall
    · simp at hq
  handle := by
    intro c i stimulus n input via n' hreach h hoke hn hinput hact
    obtain ⟨hsteady, hbelow⟩ := hok _ _ hoke
    have hjoin : stimulus.isJoin = false := Event.isJoin_of_steady hsteady
    obtain ⟨htallied, hpending⟩ := h.node i n hn
    have htallied' := (Node.tallied_booked w.env).act htallied hact
    refine ⟨⟨⟨htallied'.keyed, htallied'.waits⟩, ?_⟩, trivial, fun _ _ => trivial⟩
    obtain ⟨s, hs⟩ := refines_of_steady hstatic (fun c e he => (hok c e he).1) hreach hbelow
    obtain ⟨⟨s', -, -, htracks⟩, -⟩ := hs.acted hstatic hbelow hjoin hn hinput hact
    obtain ⟨hle, hlen, hkeep⟩ := hs.act_keeps hstatic hbelow hjoin hn hinput hact
    have hold := ((applying_kept hstatic hok).reach hreach).node i n hn
    obtain ⟨r, hmoves, hcloses⟩ :=
      acted_closes hreach.orderly hinput (no_join hjoin hinput) hact
    have hindexed := htracks.indexed
    change n'.Pending
    obtain ⟨⟨lastApplied, hraft⟩, -⟩ := hcloses.frame
    cases hcloses with
    | hold => exact hpending
    | register hpropose hwrite =>
      intro k q hq
      rw [GoMap.lookup_write hwrite] at hq
      split at hq
      next heq =>
        rcases propose_cases hpropose with ⟨hno, -⟩ | ⟨-, hidx, -⟩
        · cases hno
        · cases hidx
          have hbound : n.applied.length ≤ n.raft.log.length := by
            rw [hold.applied, List.length_take]
            exact min_le_right _ _
          rw [heq, lastLogIndex_eq (hs.node i n hn).tracks.indexed]
          exact Nat.lt_succ_of_le hbound
      next => exact hpending k q hq
    | apply =>
      rw [hraft] at hle hlen hkeep hindexed
      have hcaught : r.lastApplied = n.raft.commitIndex := hmoves.lastApplied_eq.trans hold.caught
      refine hpending.apply hindexed (hcaught.trans_le hle) hlen ?_
      rw [hold.applied, hold.caught, hcaught]
      exact hkeep
  interrupt := fun _ _ _ _ _ _ _ _ _ _ _ _ _ => trivial
  crash := fun _ _ _ _ _ _ _ _ hoke => (Event.not_steady_crash (hok _ _ hoke).1).elim
  dial := fun _ _ _ _ _ _ _ _ _ _ _ _ => trivial
  answer := by
    intro c i call success n n' _ h _ hn hanswer
    obtain ⟨htallied, hpending⟩ := h.node i n hn
    have htallied' := (Node.tallied_booked w.env).answers htallied hanswer
    obtain ⟨calls, rfl⟩ := Node.answer_frame hanswer
    exact ⟨htallied', hpending⟩

theorem Fit.tallied (h : Fit w bound c) (hn : c.node i = some n) : n.Tallied ∧ n.Pending :=
  ((tallied_kept h.static fun _ _ h => h).reach
    (h.reach.before (fun _ _ _ hstep h => h.before hstep) h.below)).node i n hn

/-! The commit index. -/

theorem Fit.announce (ps : List String) (hnodup : ps.Nodup) (hself : i ∉ ps)
    (h : Fit w bound c) (hn : c.node i = some n) (hlead : n.raft.state = .leader)
    (hcommit : n.raft.log.length ≤ n.raft.commitIndex)
    (hready : ∀ p ∈ ps, c.Level n.raft p ∧ ∃ msg, n.raft.appendEntriesFor p = some msg ∧
      { origin := i, msg, dest := none } ∈ c.net) :
    ∃ c', Visited w bound c i ps c' n ∧ ∀ p ∈ ps, ∃ m, c'.node p = some m ∧
      m.raft.currentTerm = n.raft.currentTerm ∧ m.raft.log = n.raft.log ∧
      n.raft.log.length ≤ m.raft.commitIndex := by
  induction ps generalizing c with
  | nil => exact ⟨c, ⟨h, .refl, hn, fun _ _ _ => rfl⟩, fun p hp => (by cases hp)⟩
  | cons p rest ih =>
    obtain ⟨hp, hnodup⟩ := List.nodup_cons.mp hnodup
    obtain ⟨hpi, hself⟩ := not_or.mp (mt List.mem_cons.mpr hself)
    obtain ⟨⟨-, hnext, m, hm, hterm, hlog⟩, msg, hfor, hpacket⟩ := hready p List.mem_cons_self
    obtain ⟨s, hs⟩ := h.refines
    have hname : m.raft.id = p := (hs.node p m hm).tracks.id
    have hfacing := h.facing hn hlead hm (Ne.symm hpi) hterm.le
    obtain ⟨f, reply, hstep, hmsgs, hnow, hsame, hcommitted⟩ :=
      hfacing.settles (hname ▸ hfor) hlog (hname ▸ hnext) hcommit
    obtain ⟨htype, -, hrecipient, -⟩ :=
      carries_appendEntriesFor hfacing.indexed hfacing.cursor (hname ▸ hfor)
    rw [hname] at hstep hrecipient
    obtain ⟨c₁, cause, hmoved, -⟩ := h.request hpacket rfl (by simp [Message.isRequest, htype])
      hrecipient hn hm hstep (hnow.trans_le (h.terms _ (hs.now i n hn))) hmsgs
    obtain ⟨m', lastApplied, hm', hraft⟩ := hmoved.self
    have hothers : ∀ q, q ≠ p → c₁.node q = c.node q := fun q hq => hmoved.other hq
    obtain ⟨c₂, hvisited, hsettled⟩ := ih hnodup hself hmoved.fit ((hothers i hpi).trans hn)
      fun q hq => by
        obtain ⟨⟨hmatch, hnext, hpeer⟩, msg, hfor, hpacket⟩ :=
          hready q (List.mem_cons_of_mem p hq)
        refine ⟨⟨hmatch, hnext, ?_⟩, msg, hfor, hmoved.keeps hpacket⟩
        rwa [hothers q fun heq => hp (heq ▸ hq)]
    refine ⟨c₂, ⟨hvisited.fit, hmoved.later.trans hvisited.later, hvisited.self,
      fun j hji hj => ?_⟩, fun q hq => ?_⟩
    · obtain ⟨hjp, hjrest⟩ := not_or.mp (mt List.mem_cons.mpr hj)
      exact (hvisited.others j hji hjrest).trans (hothers j hjp)
    · rcases List.mem_cons.mp hq with rfl | hq
      · refine ⟨m', (hvisited.others q (Ne.symm hpi) hp).trans hm', ?_, ?_, ?_⟩ <;> rw [hraft]
        · exact hnow
        · exact hsame
        · exact hcommitted
      · exact hsettled q hq

theorem Fit.converge (h : Fit w bound c) (hmany : 1 < w.members.length)
    (hn : c.node i = some n) (hlead : n.raft.state = .leader)
    (hhighest : ∀ j m, c.node j = some m → m.raft.currentTerm ≤ n.raft.currentTerm) :
    ∃ c' n', Fit w bound c' ∧ Later w c c' ∧ c'.node i = some n' ∧ n'.raft.state = .leader ∧
      ∀ j m, c'.node j = some m → m.raft.currentTerm = n'.raft.currentTerm ∧
        m.raft.log = n.raft.log ∧ m.raft.commitIndex = n.raft.log.length := by
  obtain ⟨s, hs⟩ := h.refines
  have hhosts := hs.node i n hn
  have hcard := hhosts.tracks.card (List.mem_toFinset.mpr hhosts.member)
  rw [List.toFinset_card_of_nodup h.static.nodup] at hcard
  have hpeers : n.raft.peers ≠ [] := fun hnil => by
    rw [hnil] at hcard
    simp at hcard
    omega
  have hself : i ∉ n.raft.peers := fun hno => ((hhosts.tracks.peers i).mp hno).2 rfl
  obtain ⟨c₁, n₁, hvisited, hconcerns, hlevels, hratifies⟩ :=
    Fit.syncAll n.raft.peers hhosts.tracks.nodup hself h hn hlead fun p hp => by
      obtain ⟨m, hm⟩ := h.populated (List.mem_toFinset.mp ((hhosts.tracks.peers p).mp hp).1)
      exact ⟨m, hm, hhighest p m hm⟩
  have hcommit : n₁.raft.log.length ≤ n₁.raft.commitIndex := by
    refine hratifies (.inl hpeers) fun q hq => (hlevels q ?_).1
    rwa [← hconcerns.peers]
  have hlead₁ := hconcerns.state.trans hlead
  obtain ⟨c₂, n₂, heartbeatElapsed, heartbeatAcked, lastApplied, hfit, hlater, hnode, hraft,
    hsent⟩ := hvisited.fit.beat hvisited.self hlead₁
  have hn₂ : c₂.node i = some n₂ := by rw [hnode, Function.update_self]
  obtain ⟨c₃, hvisited₃, hsettled⟩ := Fit.announce n.raft.peers hhosts.tracks.nodup hself hfit hn₂
    (by rw [hraft]; exact hlead₁) (by rw [hraft]; exact hcommit) fun p hp => by
      obtain ⟨hmatch, hnext, m, hm, hterm, hlog⟩ := hlevels p hp
      obtain ⟨msg, hfor, hpacket⟩ := hsent p (by rwa [hconcerns.peers])
      rw [hraft]
      refine ⟨⟨hmatch, hnext, m, ?_, hterm, hlog⟩, msg, hfor, hpacket⟩
      rw [hnode, Function.update_of_ne ((hhosts.tracks.peers p).mp hp).2, hm]
  have hlog₂ : n₂.raft.log = n.raft.log := by
    rw [hraft]
    exact hconcerns.log
  refine ⟨c₃, n₂, hvisited₃.fit, (hvisited.later.trans hlater).trans hvisited₃.later,
    hvisited₃.self, by rw [hraft]; exact hlead₁, fun j m hm => ?_⟩
  obtain ⟨s₃, hs₃⟩ := hvisited₃.fit.refines
  have hle := hvisited₃.fit.commit_le hm
  by_cases hj : j = i
  · subst hj
    cases hvisited₃.self.symm.trans hm
    refine ⟨rfl, hlog₂, le_antisymm (hlog₂ ▸ hle) ?_⟩
    rw [← hlog₂, hraft]
    exact hcommit
  · have hmember := List.mem_toFinset.mpr (hs₃.node j m hm).member
    obtain ⟨m', hm', hterm, hlog, hcommitted⟩ :=
      hsettled j ((hhosts.tracks.peers j).mpr ⟨hmember, hj⟩)
    cases hm.symm.trans hm'
    rw [hlog] at hle
    rw [hlog₂] at hlog hle hcommitted
    exact ⟨hterm, hlog, le_antisymm hle hcommitted⟩

theorem Fit.leader_unique (h : Fit w bound c) {j : String} (hn : c.node i = some n)
    (hlead : n.raft.state = .leader) (hm : c.node j = some m) (hlead' : m.raft.state = .leader)
    (hterm : m.raft.currentTerm = n.raft.currentTerm) : j = i := by
  obtain ⟨s, hs⟩ := h.refines
  obtain ⟨k, hk, hleader, -⟩ := hs.hist _ (hs.now i n hn) hlead
  obtain ⟨k', hk', hleader', -⟩ := hs.hist _ (hs.now j m hm) hlead'
  simp only at hk hk' hleader hleader'
  rw [hterm, hk] at hk'
  cases hk'
  exact hleader'.symm.trans hleader

theorem Later.applied_grows (h : Later w c c') (i : String) :
    c.appliedAt i <+: c'.appliedAt i := by
  induction h with
  | refl => exact List.prefix_refl _
  | tail _ hstep ih =>
    obtain ⟨e, halone, hstep⟩ := hstep
    exact ih.trans (step_applied_grows (Event.steady_of_unattended halone) hstep i)

end Cluster

/-- From every state a run without crashes and joins can go on, by ticks and deliveries alone, to
one in which all nodes have one log, have committed and applied it and agree on the leader. It has
in it what any node has applied, it is the log of the node that leads the highest term if there is
one, and the clients of its entries have been told, except those whose channel a later call has
taken. -/
theorem every_state_can_converge (hstatic : Static w) (hmany : 1 < w.members.length)
    (hreach : Cluster.Reach w (fun _ e => e.steady = true) c)
    (hroom : ∀ seen ∈ c.hist, seen.2.currentTerm + 3 < uint64Size) :
    ∃ c' log leader, Cluster.Leads w (fun _ e => e.unattended = true) c c' ∧
      (∀ i ∈ w.members, ∃ n, c'.node i = some n ∧ n.raft.log = log ∧
        n.raft.commitIndex = log.length ∧ n.applied = log ∧ n.fsm = KV.after w.env log ∧
        (n.raft.state = .leader ↔ i = leader) ∧
        ∀ (q : Nat) (call : Call), n.calls[q]? = some call → call.index ≤ log.length →
          call.signalled = true ∨
            ∃ p later, q < p ∧ n.calls[p]? = some later ∧ later.index = call.index) ∧
      leader ∈ w.members ∧
      (∀ i n, c.node i = some n → n.applied <+: log) ∧
      ∀ i n, c.node i = some n → n.raft.state = .leader →
        (∀ j m, c.node j = some m → m.raft.currentTerm ≤ n.raft.currentTerm) →
        leader = i ∧ log = n.raft.log := by
  have hfit : Cluster.Fit w (uint64Size - 2) c :=
    ⟨hstatic, by decide, hreach, fun seen hseen => by have := hroom seen hseen; omega⟩
  obtain ⟨s, hs⟩ := hfit.refines
  obtain ⟨c₁, i, n, hfit₁, hlater₁, hn, hlead, hhighest, hsame⟩ : ∃ c₁ i n,
      Cluster.Fit w (uint64Size - 2) c₁ ∧ Cluster.Later w c c₁ ∧ c₁.node i = some n ∧
      n.raft.state = .leader ∧
      (∀ j m, c₁.node j = some m → m.raft.currentTerm ≤ n.raft.currentTerm) ∧
      ∀ j m, c.node j = some m → m.raft.state = .leader →
        (∀ k l, c.node k = some l → l.raft.currentTerm ≤ m.raft.currentTerm) →
        i = j ∧ n.raft.log = m.raft.log := by
    by_cases hled : ∃ i n, c.node i = some n ∧ n.raft.state = .leader ∧
        ∀ j m, c.node j = some m → m.raft.currentTerm ≤ n.raft.currentTerm
    · obtain ⟨i, n, hn, hlead, hhighest⟩ := hled
      refine ⟨c, i, n, hfit, .refl, hn, hlead, hhighest, fun j m hm hlead' hhighest' => ?_⟩
      have hij := hfit.leader_unique hm hlead' hn hlead
        (le_antisymm (hhighest' i n hn) (hhighest j m hm))
      subst hij
      cases hn.symm.trans hm
      exact ⟨rfl, rfl⟩
    · obtain ⟨c₁, i, n, hfit₁, hlater₁, hn, hlead, hhighest⟩ := hfit.elect hmany fun j m hm => by
        have := hroom _ (hs.now j m hm)
        simp only at this
        omega
      exact ⟨c₁, i, n, hfit₁, hlater₁, hn, hlead, hhighest, fun j m hm hlead' hhighest' =>
        absurd ⟨j, m, hm, hlead', hhighest'⟩ hled⟩
  obtain ⟨c', n', hfit', hlater', hn', hlead', hall⟩ := hfit₁.converge hmany hn hlead hhighest
  obtain ⟨s', hs'⟩ := hfit'.refines
  have happlied : ∀ j m, c'.node j = some m → m.applied = n.raft.log ∧
      m.fsm = KV.after w.env n.raft.log := by
    intro j m hm
    obtain ⟨-, hlog, hcommit⟩ := hall j m hm
    obtain ⟨hcaught, happlied, hfsm⟩ := hfit'.reach.applying hstatic hfit'.below hm
    have hlist : m.applied = n.raft.log := by
      rw [happlied, hcaught, hcommit, hlog, List.take_length]
    exact ⟨hlist, by rw [hfsm, hlist]; rfl⟩
  refine ⟨c', n.raft.log, i, hlater₁.trans hlater', fun j hj => ?_, (hs'.node i n' hn').member,
    fun j m hm => ?_, fun j m hm hlead' hhighest' => ?_⟩
  · obtain ⟨m, hm⟩ := hfit'.populated hj
    obtain ⟨hterm, hlog, hcommit⟩ := hall j m hm
    obtain ⟨hlist, hfsm⟩ := happlied j m hm
    refine ⟨m, hm, hlog, hcommit, hlist, hfsm, ⟨fun hleads => ?_, ?_⟩, fun q call hcall hle => ?_⟩
    · exact hfit'.leader_unique hn' hlead' hm hleads hterm
    · rintro rfl
      cases hn'.symm.trans hm
      exact hlead'
    · obtain ⟨htallied, hpending⟩ := hfit'.tallied hm
      cases hsignalled : call.signalled with
      | true => exact .inl rfl
      | false =>
        refine .inr ((htallied.waits q call hcall hsignalled).resolve_left fun hkey => ?_)
        have hbeyond := hpending _ _ hkey
        rw [hlist] at hbeyond
        omega
  · obtain ⟨m', hm'⟩ := hfit'.populated (hs.node j m hm).member
    have hgrows := Cluster.Later.applied_grows (hlater₁.trans hlater') j
    rwa [Cluster.appliedAt_eq hm, Cluster.appliedAt_eq hm', (happlied j m' hm').1] at hgrows
  · exact hsame j m hm hlead' hhighest'

/-- A leads term 1 and has told B of its first entry, and B has stood for term 2 since: three
nodes, three logs and nothing applied. -/
theorem every_state_can_converge_apart :
    ∃ c c' log, Cluster.Reach (mesh ["a", "b", "c"] 1 1) (fun _ e => e.steady = true) c ∧
      (∃ n ∈ c.node "b", ∃ m ∈ c.node "c", n.raft.log.length = 2 ∧ m.raft.log = [] ∧
        n.applied = []) ∧
      Cluster.Leads (mesh ["a", "b", "c"] 1 1) (fun _ e => e.unattended = true) c c' ∧
      (∃ n ∈ c'.node "b", n.applied = log) ∧ ∃ m ∈ c'.node "c", m.applied = log := by
  obtain ⟨c, hreach, hroom, hapart⟩ :
      ∃ c, Cluster.Reach (mesh ["a", "b", "c"] 1 1) (fun _ e => e.steady = true) c ∧
        (∀ seen ∈ c.hist, seen.2.currentTerm + 3 < uint64Size) ∧
        ∃ n ∈ c.node "b", ∃ m ∈ c.node "c", n.raft.log.length = 2 ∧ m.raft.log = [] ∧
          n.applied = [] :=
    Reachable.of_any
      [.handle "a" .tick, .dial 0, .handle "b" (.packet 2), .handle "a" (.packet 3), .dial 4,
        .handle "b" (.packet 6), .handle "b" .tick, .dial 9, .handle "c" (.packet 10),
        .handle "b" (.packet 11)] rfl
  obtain ⟨c', log, leader, hleads, hall, -⟩ := every_state_can_converge
    (mesh_static (by decide) (by decide) 1 1) (by decide) hreach hroom
  obtain ⟨n, hn, -, -, happlied, -⟩ := hall "b" (by decide)
  obtain ⟨m, hm, -, -, happlied', -⟩ := hall "c" (by decide)
  exact ⟨c, c', log, hreach, hapart, hleads, ⟨n, hn, happlied⟩, m, hm, happlied'⟩

end Phalanx
