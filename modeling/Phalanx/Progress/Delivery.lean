import Phalanx.Safety.Backoff
import Phalanx.Safety.Replies

/-! How a run of a static cluster can be led on: a tick, the delivery of a request, the delivery
of a response. Each event changes the instance of one node by one operation of the Raft core, up
to what the node has applied, and leaves in the network what the operation has sent. -/
namespace Phalanx

open Consensus Go Raft

variable {w : World} {bound : Nat} {c c' : Cluster} {i p : String} {n n' m : Node} {r : Raft}
variable {pk : Packet}

/-- Ticks and deliveries: nobody calls, joins, gives up or crashes. -/
def Event.unattended : Event → Bool
  | .handle _ .tick => true
  | e => e.delivers

theorem Event.steady_of_unattended {e : Event} (h : e.unattended = true) : e.steady = true := by
  cases e with
  | handle i stimulus =>
    cases stimulus with
    | tick | packet => rfl
    | propose | join => cases h
  | dial => rfl
  | crash | answer => cases h

namespace Cluster

/-- A state of a run without crashes and joins in which no term has gone past `bound`. -/
structure Fit (w : World) (bound : Nat) (c : Cluster) : Prop where
  static : Static w
  small : bound < uint64Size - 1
  reach : Reach w (fun _ e => e.steady = true) c
  terms : ∀ seen ∈ c.hist, seen.2.currentTerm ≤ bound

abbrev Later (w : World) : Cluster → Cluster → Prop := Leads w fun _ e => e.unattended = true

theorem Fit.below (h : Fit w bound c) : c.TermsBelow :=
  fun seen hseen => (h.terms seen hseen).trans_lt h.small

theorem Fit.refines (h : Fit w bound c) : ∃ s, Refines (fun _ _ => False) w c s :=
  refines_of_steady h.static (fun _ _ h => h) h.reach h.below

theorem Fit.equipped (h : Fit w bound c) (hn : c.node i = some n) : n.raft.Equipped :=
  ((fitted_kept h.static fun _ _ h => h).reach
    (h.reach.before (fun _ _ _ hstep h => h.before hstep) h.below)).node i n hn

theorem Fit.handle (h : Fit w bound c) {stimulus : Stimulus} {input : Input}
    {via : Option (Nat × Packet)} (halone : (Event.handle i stimulus).unattended = true)
    (hn : c.node i = some n) (hinput : c.input i stimulus = some (input, via))
    (hdeclines : n.declines input = false) (hact : n.act w.env input = some n')
    (hterm : n'.raft.currentTerm ≤ bound) :
    Fit w bound (c.completed i n' via) ∧ Later w c (c.completed i n' via) := by
  have hstep := step_completed hn hinput hdeclines hact
  refine ⟨⟨h.static, h.small, h.reach.step (Event.steady_of_unattended halone) hstep,
    fun seen hseen => ?_⟩, .single ⟨_, halone, hstep⟩⟩
  rcases List.mem_append.mp hseen with hold | hnew
  · exact h.terms seen hold
  · rw [List.mem_singleton.mp hnew]
    exact hterm

/-- From `c` the run goes on to `c'`, where the instance of node `i` is `r`. -/
structure Moved (w : World) (bound : Nat) (c : Cluster) (i : String) (r : Raft)
    (c' : Cluster) : Prop where
  fit : Fit w bound c'
  later : Later w c c'
  node : ∃ n' lastApplied, c'.node = Function.update c.node i (some n') ∧
    n'.raft = { r with lastApplied, msgs := [] }
  sent : ∀ m ∈ r.msgs, m.isRequest = true → { origin := i, msg := m, dest := none } ∈ c'.net

namespace Moved

theorem self (h : Moved w bound c i r c') :
    ∃ n' lastApplied, c'.node i = some n' ∧ n'.raft = { r with lastApplied, msgs := [] } := by
  obtain ⟨n', lastApplied, hnode, hraft⟩ := h.node
  exact ⟨n', lastApplied, by rw [hnode, Function.update_self], hraft⟩

theorem other (h : Moved w bound c i r c') {j : String} (hj : j ≠ i) : c'.node j = c.node j := by
  obtain ⟨n', lastApplied, hnode, -⟩ := h.node
  rw [hnode, Function.update_of_ne hj]

theorem keeps (h : Moved w bound c i r c') (hpk : pk ∈ c.net) : pk ∈ c'.net :=
  h.later.extends.mem_net hpk

end Moved

theorem mem_emitted_of_request {out : List Message} {via : Option (Nat × Packet)} {m : Message}
    (hm : m ∈ out) (hrequest : m.isRequest = true) :
    { origin := i, msg := m, dest := none } ∈ emitted i out via := by
  have hroute : ∀ l : List Message, m ∈ l → { origin := i, msg := m, dest := none } ∈ route i l :=
    fun l hl => List.mem_map.mpr ⟨m, List.mem_filter.mpr ⟨hl, hrequest⟩, rfl⟩
  cases via with
  | none => exact hroute out hm
  | some pair =>
    obtain ⟨k, req⟩ := pair
    simp only [emitted]
    split
    · refine List.mem_append_left _ (hroute _ (List.mem_filter.mpr ⟨hm, ?_⟩))
      have hrequest' := of_decide_eq_true hrequest
      cases hreply : m.isReply req.msg with
      | false => rfl
      | true =>
        obtain ⟨-, ⟨-, htype⟩ | ⟨-, htype⟩⟩ := of_decide_eq_true hreply
        all_goals simp [htype] at hrequest'
    · exact hroute out hm

theorem Fit.moved (h : Fit w bound c) {stimulus : Stimulus} {input : Input}
    {via : Option (Nat × Packet)} (halone : (Event.handle i stimulus).unattended = true)
    (hn : c.node i = some n) (hinput : c.input i stimulus = some (input, via))
    (hdeclines : n.declines input = false) (hact : n.act w.env input = some n')
    {lastApplied : Nat} (hraft : n'.raft = { r with lastApplied }) (hterm : r.currentTerm ≤ bound) :
    Moved w bound c i r (c.completed i n' via) := by
  obtain ⟨hfit, hlater⟩ := h.handle halone hn hinput hdeclines hact (by rw [hraft]; exact hterm)
  refine ⟨hfit, hlater, ⟨(n'.release true).1, lastApplied, rfl, ?_⟩, fun m hm hrequest => ?_⟩
  · change { n'.raft with msgs := [] } = _
    rw [hraft]
  · refine List.mem_append_right _ (mem_emitted_of_request ?_ hrequest)
    change m ∈ n'.raft.msgs
    rw [hraft]
    exact hm

theorem applyCommitted_raft (env : Env) (n : Node) (r : Raft) :
    ∃ lastApplied,
      (Node.applyCommitted env { n with raft := r }).raft = { r with lastApplied } := by
  refine ⟨r.applicableEntries.2.lastApplied, ?_⟩
  rw [(Node.applyCommitted_frame env { n with raft := r }).1]
  exact applicableEntries_eq r

theorem Fit.tick (h : Fit w bound c) (hn : c.node i = some n) (htick : n.raft.tick = some r)
    (hterm : r.currentTerm ≤ bound) : ∃ c', Moved w bound c i r c' := by
  obtain ⟨lastApplied, hraft⟩ := applyCommitted_raft w.env n r
  have hact : n.act w.env .tick = some (Node.applyCommitted w.env { n with raft := r }) := by
    simp [Node.act, htick]
  have halone : (Event.handle i .tick).unattended = true := rfl
  exact ⟨_, h.moved halone hn rfl rfl hact hraft hterm⟩

theorem Fit.response (h : Fit w bound c) (hpk : pk ∈ c.net) (hdest : pk.dest = some i)
    (hreply : pk.msg.isRequest = false) (hn : c.node i = some n)
    (hstep : n.raft.step pk.msg = some r) (hterm : r.currentTerm ≤ bound) :
    ∃ c', Moved w bound c i r c' := by
  obtain ⟨k, hk⟩ := List.getElem?_of_mem hpk
  have hinput : c.input i (.packet k) = some (.response pk.msg, some (k, pk)) := by
    simp [input, hk, hdest, hreply]
  by_cases htype : pk.msg.type = .appendEntriesResp
  · obtain ⟨lastApplied, hraft⟩ := applyCommitted_raft w.env n r
    have hact : n.act w.env (.response pk.msg) =
        some (Node.applyCommitted w.env { n with raft := r }) := by
      simp [Node.act, hstep, htype]
    exact ⟨_, h.moved rfl hn hinput rfl hact hraft hterm⟩
  · have hact : n.act w.env (.response pk.msg) = some { n with raft := r } := by
      simp [Node.act, hstep, htype]
    have hraft : ({ n with raft := r } : Node).raft = { r with lastApplied := r.lastApplied } := rfl
    exact ⟨_, h.moved rfl hn hinput rfl hact hraft hterm⟩

theorem Fit.dial (h : Fit w bound c) {k : Nat} (hk : c.net[k]? = some pk) (hdest : pk.dest = none)
    (hn : c.node pk.origin = some n)
    (hroute : w.env.dial pk.origin (n.resolvePeerAddr pk.msg.recipient) = p) :
    Fit w bound { c with net := c.net ++ [{ pk with dest := some p }] } ∧
      Later w c { c with net := c.net ++ [{ pk with dest := some p }] } := by
  have hstep : c.step w (.dial k) =
      some { c with net := c.net ++ [{ pk with dest := some p }] } := by
    simp [step, hk, hn, hdest, hroute]
  exact ⟨⟨h.static, h.small, h.reach.step rfl hstep, h.terms⟩, .single ⟨_, rfl, hstep⟩⟩

theorem mem_emitted_of_reply {out : List Message} {k : Nat} {reply : Message}
    (hout : out = [reply]) (hrequest : pk.msg.isRequest = true)
    (hreply : reply.isReply pk.msg = true) :
    (⟨p, pk.msg.answered reply, some pk.origin, some k⟩ : Packet) ∈
      emitted p out (some (k, pk)) := by
  subst hout
  simp only [emitted, if_pos hrequest]
  apply List.mem_append_right
  rw [List.filter_cons_of_pos (by exact hreply)]
  exact List.mem_singleton.mpr rfl

theorem isReply_of_step {req reply : Message} (hdrained : r.msgs = []) {r' : Raft}
    (hstep : r.step (req.received p) = some r') (hmsgs : r'.msgs = [reply]) :
    reply.isReply req = true := by
  apply decide_eq_true
  by_cases htype : req.type = .appendEntries
  · have hgot : (req.received p).type = .appendEntries ∧ (req.received p).sender = req.sender := by
      rw [Message.received, if_pos htype]
      exact ⟨rfl, rfl⟩
    obtain ⟨answer, hanswer, hkind, hto⟩ := step_appendEntries_replies hgot.1 hstep
    rw [hdrained, hmsgs] at hanswer
    cases hanswer
    exact ⟨hto.trans hgot.2, .inl ⟨htype, hkind⟩⟩
  · have hgot : (req.received p).type = .requestVote ∧ (req.received p).sender = req.sender := by
      rw [Message.received, if_neg htype]
      exact ⟨rfl, rfl⟩
    obtain ⟨⟨answer, hanswer, hkind, hto⟩, -⟩ := step_requestVote_replies hgot.1 hstep
    rw [hdrained, hmsgs] at hanswer
    cases hanswer
    exact ⟨hto.trans hgot.2, .inr ⟨htype, hkind⟩⟩

theorem Fit.request (h : Fit w bound c) (hpk : pk ∈ c.net) (hdest : pk.dest = none)
    (hrequest : pk.msg.isRequest = true) (hrecipient : pk.msg.recipient = p)
    (hn : c.node pk.origin = some n) (hm : c.node p = some m)
    (hstep : m.raft.step (pk.msg.received p) = some r) (hterm : r.currentTerm ≤ bound)
    {reply : Message} (hmsgs : r.msgs = [reply]) :
    ∃ c' cause, Moved w bound c p r c' ∧
      (⟨p, pk.msg.answered reply, some pk.origin, some cause⟩ : Packet) ∈ c'.net := by
  obtain ⟨s, hs⟩ := h.refines
  have hreply := isReply_of_step (hs.node p m hm).drained hstep hmsgs
  have htransit := hs.net pk hpk
  have hroute : w.env.dial pk.origin (n.resolvePeerAddr pk.msg.recipient) = p := by
    rw [← hrecipient]
    refine (hs.node _ n hn).routes _ htransit.recipient ?_
    rw [htransit.origin]
    exact htransit.apart.symm
  obtain ⟨k, hk⟩ := List.getElem?_of_mem hpk
  obtain ⟨hfit, hlater⟩ := h.dial hk hdest hn hroute
  generalize hc₁ : ({ c with net := c.net ++ [{ pk with dest := some p }] } : Cluster) = c₁
    at hfit hlater
  have hnode : c₁.node = c.node := by rw [← hc₁]
  have hinput : c₁.input p (.packet c.net.length) =
      some (.request pk.msg, some (c.net.length, { pk with dest := some p })) := by
    have hat : c₁.net[c.net.length]? = some { pk with dest := some p } := by
      rw [← hc₁]
      exact List.getElem?_concat_length
    simp [input, hat, hrequest]
  have hm₁ : c₁.node p = some m := by rw [hnode, hm]
  have hid : m.id = p := (hs.node p m hm).id
  obtain ⟨m', lastApplied, hact, hraft⟩ : ∃ m' lastApplied,
      m.act w.env (.request pk.msg) = some m' ∧ m'.raft = { r with lastApplied } := by
    by_cases htype : pk.msg.type = .appendEntries
    · obtain ⟨lastApplied, hraft⟩ := applyCommitted_raft w.env m r
      exact ⟨_, lastApplied, by simp [Node.act, hid, hstep, htype], hraft⟩
    · exact ⟨{ m with raft := r }, r.lastApplied, by simp [Node.act, hid, hstep, htype], rfl⟩
  have hmoved := hfit.moved rfl hm₁ hinput rfl hact hraft hterm
  obtain ⟨n', applied, hafter, hraft'⟩ := hmoved.node
  refine ⟨_, c.net.length, ⟨hmoved.fit, hlater.trans hmoved.later,
    ⟨n', applied, by rw [hafter, hnode], hraft'⟩, hmoved.sent⟩, ?_⟩
  have hout : m'.raft.msgs = [reply] := by
    rw [hraft]
    exact hmsgs
  exact List.mem_append_right _
    (mem_emitted_of_reply (show _ = [reply] from hout) hrequest hreply)

end Cluster
end Phalanx
